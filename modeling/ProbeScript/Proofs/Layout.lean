import ProbeScript.Proofs.Spans
import ProbeScript.Proofs.Text.Filler

/-! Layout between tokens is free. At the start or the end of a token a text may be parted, and
white space with comments put there: the tokens stay what they are, and so does the tree. -/
namespace ProbeScript

namespace Phrase
open Segment

variable {i j k : Nat} {t u f : Text} {ts us vs : List Token} {x : Token}

/-- White space may come where a text is parted between tokens. -/
private theorem Scans.insert (h : Scans 0 t us k u) (h' : Scans k u vs j [])
    (hf : ∀ c ∈ f, Text.isLayout c = true) (hne : f ≠ []) :
    ∃ s us', t = s ++ u ∧ Covers (s ++ (f ++ u)) us' ∧ Alike us' (us ++ vs) := by
  obtain ⟨s, hs, -, hread⟩ := h.exists_read
  have hsep : Separated (f ++ u) := by
    obtain ⟨c, f, rfl⟩ := List.exists_cons_of_ne_nil hne
    exact separated_cons (Terminal.mem_separators_of_isLayout (hf c List.mem_cons_self))
  have hus := hread (f ++ u) (.inr hsep)
  obtain ⟨vs', j', hvs, halike⟩ := h'.moved (k + f.length)
  have hall := hus.append (hvs.after_layout hf)
  have hlen := hall.length_eq
  refine ⟨s, us ++ vs', hs, ?_, .append (alike_iff.2 ⟨rfl, h.spelled, h.spelled⟩) halike⟩
  rwa [Covers, show (s ++ (f ++ u)).length = j' by simpa using hlen]

/-- The row of segments is parted in two and the tokens likewise, where white space may come. -/
structure Parted (ss : List Segment) (ts : List Token) (k : Nat) (as bs : List Segment)
    (us vs : List Token) : Prop where
  segments_eq : ss = as ++ bs
  tokens_eq : ts = us ++ vs
  index_eq : k = (as.flatMap text).length
  before : Scans 0 (ss.flatMap blanked) us k (bs.flatMap blanked)
  after : ∃ j, Scans k (bs.flatMap blanked) vs j []
  /-- A line comment goes on until a line feed. -/
  not_line : ∀ ls body, as ≠ ls ++ [lineComment body]
  /-- No white space stands at the head of the text before the first token. -/
  solid : as.flatMap text = [] → ∀ c ∈ (bs.flatMap text).head?, Text.isLayout c = false

/-- A row of segments is parted where a token begins and where it ends. -/
private theorem exists_parted {ss : List Segment} (hrow : Row t ss [])
    (hts : Scans 0 (ss.flatMap blanked) ts j []) (hx : x ∈ ts)
    (hk : k = x.lexeme.start ∨ k = x.lexeme.stop) :
    ∃ as bs us vs, Parted ss ts k as bs us vs := by
  have hspelled := hts.spelled x hx
  obtain ⟨c, w, hc, hlayout⟩ := hspelled.exists_cons
  obtain ⟨pre, post, rfl⟩ := List.append_of_mem hx
  obtain ⟨as, ms, bs, rfl, hstart, hplain, htext, hpre, hword, hpost⟩ := exists_word hts hrow.sound
  rw [Nat.zero_add] at hstart
  have hhead : ∀ d ∈ ((ms ++ bs).flatMap text).head?, Text.isLayout d = false := by
    rw [List.flatMap_append, htext, hc]
    exact fun d hd => Option.some.inj hd ▸ hlayout
  rcases hk with rfl | rfl
  · refine ⟨as, ms ++ bs, pre, x :: post, rfl, rfl, hstart, hpre, ⟨j, hword.append hpost⟩, ?_,
      fun _ => hhead⟩
    rintro ls body rfl
    obtain ⟨u, hline, hrest⟩ := hrow.split
    have hu := hrest.text_eq
    rw [List.append_nil] at hu
    have hc' : c ∈ u.head? := by
      rw [hu, List.flatMap_append, htext, hc]
      rfl
    rw [hline.head?_after_line c hc'] at hlayout
    cases hlayout
  · refine ⟨as ++ ms, bs, pre ++ [x], post, (List.append_assoc ..).symm, by simp, ?_,
      hpre.append hword, ⟨j, hpost⟩, ?_, ?_⟩
    · rw [List.flatMap_append, List.length_append, htext, ← hstart]
      rfl
    · intro ls body he
      have hne : ms ≠ [] := by
        rintro rfl
        exact hspelled.ne_nil htext.symm
      have hlast := congrArg List.getLast? he
      rw [List.getLast?_append_of_ne_nil _ hne, List.getLast?_concat] at hlast
      cases hplain _ (List.mem_of_getLast? hlast)
    · intro hnil
      rw [List.flatMap_append, htext] at hnil
      exact absurd (List.append_eq_nil_iff.1 hnil).2 hspelled.ne_nil

/-- White space may follow the segments before the place. -/
private theorem Parted.row_cut {ss as bs : List Segment} (h : Parted ss ts k as bs us vs)
    (hrow : Row t ss []) (hu : ∀ c ∈ u.head?, Text.isLayout c = true) :
    Row (as.flatMap text ++ u) as u := by
  rw [h.segments_eq] at hrow
  obtain ⟨w, has, -⟩ := hrow.split
  rcases List.eq_nil_or_concat' as with rfl | ⟨ls, s, rfl⟩
  · exact .done u
  · refine has.cut_last (fun body hs => h.not_line ls body (hs ▸ rfl)) fun c hc => ?_
    have hlayout := hu c hc
    constructor <;> rintro rfl <;> cases hlayout

/-- A text parted by a filler: blanked it is parted by white space. -/
private theorem Parted.blanked_insert {source : Text} {ss as bs : List Segment} {c : Char}
    {filler : Text} (h : Parted ss ts k as bs us vs) (hrow : Row (unmarked source) ss [])
    (hc : Text.isLayout c = true) (hf : Text.Filler filler) :
    ∃ f, f ≠ [] ∧ (∀ d ∈ f, Text.isLayout d = true) ∧
      Text.blanked (source.take k ++ c :: filler ++ source.drop k) =
        .ok (as.flatMap blanked ++ (f ++ bs.flatMap blanked)) := by
  have hhead : ∀ d ∈ (c :: filler ++ bs.flatMap text).head?, Text.isLayout d = true :=
    fun d hd => Option.some.inj hd ▸ hc
  have has := h.row_cut hrow hhead
  obtain ⟨fs, hfs, hlayout⟩ := exists_row_of_filler (.space hc hf) (bs.flatMap text)
  rw [h.segments_eq] at hrow
  obtain ⟨w, -, hbs⟩ := hrow.split
  obtain rfl : w = bs.flatMap text := by rw [hbs.text_eq, List.append_nil]
  have hsource : unmarked source = as.flatMap text ++ bs.flatMap text := by
    rw [hrow.text_eq, List.append_nil, List.flatMap_append]
  have hdrop : source.drop k = bs.flatMap text := by
    rw [h.index_eq]
    exact Text.drop_of_unmarked hsource h.solid
  have hunmarked : unmarked (source.take k ++ c :: filler ++ source.drop k) =
      as.flatMap text ++ (c :: filler ++ bs.flatMap text) := by
    rw [hdrop, List.append_assoc, h.index_eq]
    refine Text.unmarked_take_append hsource fun _ d hd => ?_
    obtain rfl := Option.some.inj hd
    rintro rfl
    cases hc
  refine ⟨fs.flatMap blanked, ?_, hlayout, ?_⟩
  · intro hnil
    have hlen := Text.flatMap_blanked_length fs
    rw [← List.append_cancel_right hfs.text_eq, hnil] at hlen
    cases hlen
  · refine Text.blanked_eq_ok_iff.2 ⟨as ++ (fs ++ bs), ?_, by simp⟩
    rw [hunmarked]
    exact has.append (hfs.append hbs)

end Phrase

namespace Goal
open Phrase Segment

/-- White space, with comments if there are any, may be put before and after every token of a text
that is accepted: the text is accepted still, with the same tree. -/
theorem read_insert (g : Goal) {source : Text} {n : Node} (h : g.read source = .ok n)
    {ts : List Token} (hts : g.HasTokens source ts) {x : Token} (hx : x ∈ ts) {k : Nat}
    (hk : k = x.lexeme.start ∨ k = x.lexeme.stop) {c : Char} (hc : Text.isLayout c = true)
    {filler : Text} (hf : Text.Filler filler) :
    g.ReadsAs (source.take k ++ c :: filler ++ source.drop k) n := by
  obtain ⟨text, d, hblanked, hcovers, htree⟩ := exists_covers_of_read h
  obtain rfl := (hasTokens_iff hblanked hcovers).1 hts
  obtain ⟨ss, hrow, rfl⟩ := Text.blanked_eq_ok_iff.1 hblanked
  obtain ⟨as, bs, us, vs, hparted⟩ := exists_parted hrow hcovers hx hk
  obtain ⟨j, hafter⟩ := hparted.after
  obtain ⟨f, hne, hlayout, hinsert⟩ := hparted.blanked_insert hrow hc hf
  obtain ⟨s, us', hs, hcovers', halike⟩ := hparted.before.insert hafter hlayout hne
  rw [hparted.segments_eq, List.flatMap_append] at hs
  obtain rfl := List.append_cancel_right hs
  rw [← hparted.tokens_eq] at halike
  exact readsAs_of_alike hinsert hcovers' halike htree rfl

/-- A line comment that begins with a star, after a star. -/
theorem read_insert_line : ∃ n, expression.read "a*b".toList = .ok n ∧
    expression.ReadsAs "a* //*\nb".toList n := by
  have hkept : Kept "a*b".toList := .word (Text.forall_mem_of_all (by decide))
  let star : Joint := ⟨.multiply, 1⟩
  let d : expression.Phrase :=
    .more (.one (.value (.name ⟨0, ['a']⟩))) star (.value (.name ⟨2, ['b']⟩))
  have hread : expression.initial.read 0 0 "a*b".toList = .ok (expression.final d) := rfl
  obtain ⟨n, hn⟩ : ∃ n, expression.read "a*b".toList = .ok n := ⟨_, read_of_kept hkept hread rfl⟩
  have hts : expression.HasTokens "a*b".toList (expression.tokens d) :=
    ⟨_, d, Text.blanked_of_kept hkept, read_eq_ok_iff.1 hread, rfl⟩
  have hstar : star.token ∈ expression.tokens d := List.mem_cons_of_mem _ List.mem_cons_self
  have hfiller : Text.Filler "//*\n".toList :=
    show Text.Filler ('/' :: '/' :: ['*'] ++ '\n' :: []) from .line (by decide) .nil
  have hinsert := read_insert expression hn hts hstar (k := 2) (.inr rfl) (c := ' ') rfl hfiller
  exact ⟨n, hn, hinsert⟩

end Goal
end ProbeScript
