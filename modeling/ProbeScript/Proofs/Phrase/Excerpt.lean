import ProbeScript.Proofs.Phrase.Alike
import ProbeScript.Proofs.Phrase.Boundary
import ProbeScript.Proofs.Phrase.Written

/-! Stretches cut out of a text, comments included. From the start of one token to the end of
another, a stretch falls into segments and tokens by itself as it does within the text. -/
namespace ProbeScript

/-- A stretch that does not begin with white space is not touched by what counts as a space. -/
private theorem Text.slice_of_unmarked {t a m b : Text} {c : Char}
    (h : Segment.unmarked t = a ++ (m ++ b)) (hc : c ∈ m.head?) (hlayout : isLayout c = false) :
    (t.take (a.length + m.length)).drop a.length = m := by
  have hdrop : t.drop a.length = m ++ b := by
    refine drop_of_unmarked h fun _ d hd => ?_
    obtain ⟨m, rfl⟩ := List.head?_eq_some_iff.1 hc
    obtain rfl := Option.some.inj hd
    exact hlayout
  rw [List.drop_take, Nat.add_sub_cancel_left, hdrop, List.take_left]

namespace Phrase
open Segment

variable {i j : Nat} {t u v b b' : Text} {ts us vs : List Token} {x y : Token}

/-- The same tokens are found when the text is read from another index. -/
theorem Scans.moved (h : Scans i t ts j u) (i' : Nat) :
    ∃ ts' j', Scans i' t ts' j' u ∧ Alike ts' ts := by
  induction h generalizing i' with
  | done _ t => exact ⟨[], i', .done i' t, .nil⟩
  | layout hc _ ih =>
    obtain ⟨ts', j', hscans, halike⟩ := ih (i' + 1)
    exact ⟨ts', j', .layout hc hscans, halike⟩
  | token hw _ ih =>
    obtain ⟨ts', j', hscans, halike⟩ := ih (i' + _)
    exact ⟨_, j', .token hw hscans, .cons ⟨rfl, hw.spells, hw.spells⟩ halike⟩

theorem Token.Spelled.exists_cons (h : x.Spelled) :
    ∃ c w, x.lexeme.text = c :: w ∧ Text.isLayout c = false := by
  obtain ⟨c, w, hc⟩ := List.exists_cons_of_ne_nil h.ne_nil
  exact ⟨c, w, hc, (hc ▸ h : x.terminal.Spells (c :: w)).isLayout_head⟩

theorem Terminal.Takes.isLayout_head {terminal : Terminal} {w : Text} (h : terminal.Takes t w) :
    ∀ c ∈ t.head?, Text.isLayout c = false := by
  obtain ⟨d, w, rfl⟩ := List.exists_cons_of_ne_nil h.spells.ne_nil
  obtain ⟨v, rfl⟩ := h.isPrefix
  exact fun c hc => Option.some.inj hc ▸ h.spells.isLayout_head

private theorem Terminal.ne_of_mem_separators {c : Char} (h : c ∈ separators) :
    c ≠ '/' ∧ c ≠ '*' := by
  have hall : ∀ c ∈ separators, c ≠ '/' ∧ c ≠ '*' := Text.forall_mem_of_all (by decide)
  exact hall c h

/-- A token takes up whole segments, none of them a comment. -/
theorem exists_word {ss : List Segment} {pre post : List Token} {k : Nat}
    (h : Scans i (ss.flatMap blanked) (pre ++ x :: post) k v) (hss : ∀ s ∈ ss, s.Sound) :
    ∃ as ms bs, ss = as ++ (ms ++ bs) ∧ x.lexeme.start = i + (as.flatMap text).length ∧
      (∀ s ∈ ms, s.isComment = false) ∧ ms.flatMap text = x.lexeme.text ∧
      Scans i (ss.flatMap blanked) pre x.lexeme.start ((ms ++ bs).flatMap blanked) ∧
      Scans x.lexeme.start ((ms ++ bs).flatMap blanked) [x] x.lexeme.stop (bs.flatMap blanked) ∧
      Scans x.lexeme.stop (bs.flatMap blanked) post k v := by
  obtain ⟨u, hpre, hword, hpost⟩ := h.split_at
  obtain ⟨as, ns, rfl, hstart, rfl⟩ := segments_of_scans hpre hss hword.isLayout_head
  obtain ⟨-, hns⟩ := List.forall_mem_append.1 hss
  obtain ⟨ms, bs, rfl, hplain, htext, hdrop⟩ := exists_rest_of_takes hns hword
  rw [hdrop] at hpost
  rw [flatMap_blanked_of_plain hplain] at htext
  refine ⟨as, ms, bs, rfl, hstart, hplain, htext, hpre, .token hword ?_, hpost⟩
  rw [hdrop]
  exact .done _ _

/-- Two beginnings of one row of segments that are not empty begin with the same character. -/
private theorem head?_text_of_append {as bs cs ds : List Segment} {c : Char} {w : Text}
    (h : as ++ bs = cs ++ ds) (hc : as.flatMap text = c :: w) (hne : cs.flatMap text ≠ []) :
    c ∈ (cs.flatMap text).head? := by
  obtain ⟨d, rest, hd⟩ := List.exists_cons_of_ne_nil hne
  have htext := congrArg (List.flatMap text) h
  rw [List.flatMap_append, List.flatMap_append, hc, hd] at htext
  rw [hd]
  exact congrArg some (List.cons.inj htext).1.symm

/-- Tokens one after the other take up whole segments too. The first of these begins with no white
space, and the last is no comment. -/
private theorem exists_segments {ss : List Segment} {pre post : List Token} {k : Nat}
    (h : Scans 0 (ss.flatMap blanked) (pre ++ us ++ post) k v) (hss : ∀ s ∈ ss, s.Sound)
    (hx : us.head? = some x) (hy : us.getLast? = some y) : ∃ as ms bs, ss = as ++ (ms ++ bs) ∧
      (as.flatMap text).length = x.lexeme.start ∧
      (as.flatMap text).length + (ms.flatMap text).length = y.lexeme.stop ∧
      (∃ c ∈ (ms.flatMap text).head?, Text.isLayout c = false) ∧
      (∃ ls s, ms = ls ++ [s] ∧ s.isComment = false) ∧
      Scans x.lexeme.start ((ms ++ bs).flatMap blanked) us y.lexeme.stop (bs.flatMap blanked) := by
  obtain ⟨us₁, rfl⟩ := List.head?_eq_some_iff.1 hx
  obtain ⟨us₂, hus⟩ := List.getLast?_eq_some_iff.1 hy
  rw [List.append_assoc, List.cons_append] at h
  obtain ⟨as, ns, cs, rfl, hstart, -, hfirst, -, hone, hrest⟩ := exists_word h hss
  obtain ⟨-, hss⟩ := List.forall_mem_append.1 hss
  have hall := hone.append hrest
  rw [List.singleton_append, ← List.cons_append, hus, List.append_assoc] at hall
  obtain ⟨ps, ls, bs, hns, hstop, hplain, hlast, hinit, hend, -⟩ := exists_word hall hss
  have hspelled : y.Spelled := hend.spelled y List.mem_cons_self
  have hne : ls ≠ [] := by
    rintro rfl
    exact hspelled.ne_nil hlast.symm
  refine ⟨as, ps ++ ls, bs, by rw [hns, List.append_assoc], by omega, ?_, ?_, ?_, ?_⟩
  · rw [List.flatMap_append, List.length_append, hlast, Lexeme.stop]
    omega
  · obtain ⟨c, w, hc, hlayout⟩ := (hone.spelled x List.mem_cons_self).exists_cons
    rw [← List.append_assoc] at hns
    have htext : (ps ++ ls).flatMap text ≠ [] := by
      rw [List.flatMap_append, hlast]
      exact List.append_ne_nil_of_right_ne_nil _ hspelled.ne_nil
    exact ⟨c, head?_text_of_append hns (hfirst.trans hc) htext, hlayout⟩
  · have hconcat := List.dropLast_append_getLast hne
    refine ⟨ps ++ ls.dropLast, ls.getLast hne, ?_, hplain _ (List.getLast_mem hne)⟩
    rw [List.append_assoc, hconcat]
  · rw [hus, List.append_assoc, ← hns]
    exact hinit.append hend

/-- A stretch of a text that is blanked the same way on its own, before a separator. -/
def Blanks (t b : Text) : Prop :=
  ∀ v, Separated v → ∃ ss, Row (t ++ v) ss v ∧ ss.flatMap blanked = b

/-- Before a separator the stretch falls, comments aside, into tokens that are alike. -/
def Excerpt (us : List Token) (t : Text) : Prop :=
  ∃ b, Blanks t b ∧ ∀ i v, Separated v → ∃ us' j, Scans i (b ++ v) us' j v ∧ Alike us' us

private theorem Blanks.append (ht : Blanks t b) (hu : Blanks u b') (hsep : Separated u) :
    Blanks (t ++ u) (b ++ b') := by
  intro v hv
  obtain ⟨ss, hss, rfl⟩ := ht (u ++ v) (hsep.append hv)
  obtain ⟨ss', hss', rfl⟩ := hu v hv
  refine ⟨ss ++ ss', ?_, List.flatMap_append⟩
  rw [List.append_assoc]
  exact hss.append hss'

/-- Of a comment only white space is left, which separates words too. -/
private theorem Blanks.separated (h : Blanks t b) (hsep : Separated t) : Separated b := by
  obtain ⟨ss, hrow, rfl⟩ := h [] fun c hc => by cases hc
  have htext := hrow.text_eq
  rw [List.append_nil, List.append_nil] at htext
  subst htext
  cases ss with
  | nil => exact hsep
  | cons s ss =>
    obtain ⟨c, rest, hc⟩ := exists_cons_of_sound (hrow.sound s List.mem_cons_self)
    rw [List.flatMap_cons, hc]
    apply separated_cons
    cases hs : s.isComment with
    | true =>
      have hlayout := isLayout_of_isComment hs c (hc ▸ List.mem_cons_self)
      exact Terminal.mem_separators_of_isLayout hlayout
    | false =>
      rw [blanked, hs] at hc
      apply hsep c
      rw [List.flatMap_cons, show s.text = c :: rest from hc]
      rfl

/-- No comment begins in the text before, whatever the stretch begins with. -/
theorem Blanks.after (hu : Blanks u b) (ht : Kept t) : Blanks (t ++ u) (t ++ b) := by
  intro v hv
  obtain ⟨ss, hss, hplain⟩ := ht (u ++ v)
  obtain ⟨ss', hss', rfl⟩ := hu v hv
  refine ⟨ss ++ ss', ?_, ?_⟩
  · rw [List.append_assoc]
    exact hss.append hss'
  · have htext := hss.text_eq
    rw [List.flatMap_append, flatMap_blanked_of_plain hplain, ← List.append_cancel_right htext]

namespace Excerpt

private theorem of_written {α : Type} {tokens : α → List Token} {P : α → Prop}
    (h : Written tokens P t) (hP : ∀ a, P a → Alike (tokens a) us) : Excerpt us t := by
  refine ⟨t, fun v _ => ?_, fun i v hv => ?_⟩
  · obtain ⟨ss, hss, hplain⟩ := h.kept v
    have htext := hss.text_eq
    exact ⟨ss, hss, by rw [flatMap_blanked_of_plain hplain, ← List.append_cancel_right htext]⟩
  · obtain ⟨a, j, hscans, ha⟩ := h.scans i v hv
    exact ⟨tokens a, j, hscans, hP a ha⟩

theorem nil : Excerpt [] [] :=
  of_written (.nil () trivial rfl : Written (fun _ : Unit => []) (fun _ => True) [])
    fun _ _ => .nil

theorem word {terminal : Terminal} {w : Text} (hw : terminal.Spells w) (hk : Kept w) :
    Excerpt [⟨terminal, 0, w⟩] w := by
  refine of_written (.word hw hk) fun l hl => ?_
  obtain ⟨start, _⟩ := l
  subst hl
  exact .cons ⟨rfl, hw, hw⟩ .nil

theorem append (ht : Excerpt us t) (hu : Excerpt vs u) (hsep : Separated u) :
    Excerpt (us ++ vs) (t ++ u) := by
  obtain ⟨b, hb, hus⟩ := ht
  obtain ⟨b', hb', hvs⟩ := hu
  refine ⟨b ++ b', hb.append hb' hsep, fun i v hv => ?_⟩
  obtain ⟨us', j, hscans, halike⟩ := hus i (b' ++ v) ((hb'.separated hsep).append hv)
  obtain ⟨vs', k, hscans', halike'⟩ := hvs j v hv
  refine ⟨us' ++ vs', k, ?_, halike.append halike'⟩
  rw [List.append_assoc]
  exact hscans.append hscans'

theorem mark (terminal : Terminal) {m : Char} (h : Excerpt us t)
    (hm : terminal.punctuation? = some m) (hf : terminal.family ≠ .multiplicative) (i : Nat) :
    Excerpt (⟨terminal, i, [m]⟩ :: us) (m :: t) := by
  obtain ⟨b, hb, hus⟩ := h
  have hs : terminal ≠ .string := by
    rintro rfl
    cases hm
  refine ⟨m :: b, hb.after ((Terminal.Spells.mark hm).kept hs hf), fun k v hv => ?_⟩
  obtain ⟨us', j, hscans, halike⟩ := hus (k + 1) v hv
  have hspelled (k : Nat) : Token.Spelled ⟨terminal, k, [m]⟩ := .mark hm
  exact ⟨_, j, .token (Terminal.takes_mark hm _) hscans,
    .cons ⟨rfl, hspelled k, hspelled i⟩ halike⟩

theorem layout {c : Char} (h : Excerpt us t) (hc : Text.isLayout c = true) :
    Excerpt us (c :: t) := by
  obtain ⟨b, hb, hus⟩ := h
  have hkept : Kept [c] := .char (by simp [inAlphabet, hc]) (by rintro rfl; cases hc)
  refine ⟨c :: b, hb.after hkept, fun k v hv => ?_⟩
  obtain ⟨us', j, hscans, halike⟩ := hus (k + 1) v hv
  exact ⟨us', j, .layout hc hscans, halike⟩

/-- The stretch as the only argument of a call. -/
theorem argument (h : Excerpt us t) :
    Excerpt (⟨.name, 0, ['f']⟩ :: ⟨.lpar, 0, ['(']⟩ :: (us ++ [⟨.rpar, 0, [')']⟩]))
      ("f(".toList ++ t ++ ")".toList) := by
  have hname : Terminal.name.Spells ['f'] := .named rfl (by simp)
  have hend := h.append (nil.mark .rpar rfl (by decide) 0) (separated_cons (by decide))
  have hlist := hend.mark .lpar rfl (by decide) 0
  rw [List.append_assoc]
  exact (word hname (hname.kept (by decide) (by decide))).append hlist (separated_cons (by decide))

/-- The stretch as the only statement of a probe, without its semicolon. -/
theorem body (h : Excerpt us t) :
    Excerpt (⟨.probeSpec, 0, ['p']⟩ :: ⟨.lbrace, 0, ['\x7b']⟩ ::
        (us ++ [⟨.semicolon, 0, [';']⟩, ⟨.rbrace, 0, ['\x7d']⟩]))
      ("p \x7b".toList ++ t ++ ";\x7d".toList) := by
  have hspec : Terminal.probeSpec.Spells ['p'] :=
    .spec (List.cons_ne_nil _ _) (List.forall_mem_singleton.2 rfl)
  have hclose := (nil.mark .rbrace rfl (by decide) 0).mark .semicolon rfl (by decide) 0
  have hend := h.append hclose (separated_cons (by decide))
  have hblock := (hend.mark .lbrace rfl (by decide) 0).layout (c := ' ') rfl
  rw [List.append_assoc]
  exact (word hspec (hspec.kept (by decide) (by decide))).append hblock (separated_cons (by decide))

/-- A stretch is a text by itself, with a derivation of the same kind. -/
theorem exists_covers (h : Excerpt us t) :
    ∃ b us', Text.blanked t = .ok b ∧ Covers b us' ∧ Alike us' us := by
  obtain ⟨b, hb, hus⟩ := h
  have hnil : Separated [] := fun c hc => by cases hc
  obtain ⟨ss, hrow, rfl⟩ := hb [] hnil
  obtain ⟨us', j, hscans, halike⟩ := hus 0 [] hnil
  rw [List.append_nil] at hrow hscans
  have hblanked := Text.blanked_eq_ok_iff.2 ⟨ss, (Text.unmarked_of_row hrow).symm ▸ hrow, rfl⟩
  have hlen := hscans.length_eq
  refine ⟨_, us', hblanked, ?_, halike⟩
  rwa [Covers, show (ss.flatMap blanked).length = j by simpa using hlen]

end Excerpt

/-- The segments between others are those of the stretch of text that they stand for. -/
private theorem slice_of_row {source : Text} {as ms bs : List Segment} {c : Char}
    (h : Row (unmarked source) (as ++ (ms ++ bs)) []) (hc : c ∈ (ms.flatMap text).head?)
    (hlayout : Text.isLayout c = false) :
    (source.take ((as.flatMap text).length + (ms.flatMap text).length)).drop
      (as.flatMap text).length = ms.flatMap text := by
  refine Text.slice_of_unmarked (b := bs.flatMap text) ?_ hc hlayout
  rw [h.text_eq, List.append_nil, List.flatMap_append, List.flatMap_append]

/-- The stretch of a token is its word. -/
theorem slice_of_mem {source text : Text} (h : Text.blanked source = .ok text)
    (hts : Covers text ts) (hx : x ∈ ts) :
    (source.take x.lexeme.stop).drop x.lexeme.start = x.lexeme.text := by
  obtain ⟨ss, hrow, rfl⟩ := Text.blanked_eq_ok_iff.1 h
  obtain ⟨pre, post, rfl⟩ := List.append_of_mem hx
  obtain ⟨as, ms, bs, rfl, hstart, -, hword, -⟩ := exists_word hts hrow.sound
  obtain ⟨c, w, hc, hlayout⟩ := (hts.spelled x hx).exists_cons
  have hhead : c ∈ (ms.flatMap Segment.text).head? := by
    rw [hword, hc]
    rfl
  have hslice := slice_of_row hrow hhead hlayout
  rwa [hword, ← Nat.zero_add (as.flatMap Segment.text).length, ← hstart] at hslice

/-- Tokens one after the other in a text are those of the stretch between them. -/
theorem excerpt_of_infix {source text : Text} (h : Text.blanked source = .ok text)
    (hts : Covers text ts) (hus : us <:+: ts) (hx : us.head? = some x)
    (hy : us.getLast? = some y) : x.lexeme.start < y.lexeme.stop ∧
      y.lexeme.stop ≤ source.length ∧
        Excerpt us ((source.take y.lexeme.stop).drop x.lexeme.start) := by
  obtain ⟨ss, hrow, rfl⟩ := Text.blanked_eq_ok_iff.1 h
  obtain ⟨pre, post, rfl⟩ := hus
  obtain ⟨as, ms, bs, rfl, hstart, hstop, ⟨c, hc, hlayout⟩, ⟨ls, s, rfl, hs⟩, hscans⟩ :=
    exists_segments hts hrow.sound hx hy
  have hslice := slice_of_row hrow hc hlayout
  rw [hstop, hstart] at hslice
  have hlen := congrArg List.length hrow.text_eq
  rw [Text.unmarked_length, List.append_nil, List.flatMap_append, List.flatMap_append,
    List.length_append, List.length_append] at hlen
  have hpos : 0 < ((ls ++ [s]).flatMap Segment.text).length :=
    List.length_pos_iff.2 (List.ne_nil_of_mem (List.mem_of_mem_head? hc))
  refine ⟨by omega, by omega, ?_⟩
  rw [hslice]
  refine ⟨(ls ++ [s]).flatMap blanked, fun v hv => ⟨ls ++ [s], ?_, rfl⟩, fun i v hv => ?_⟩
  · obtain ⟨r, -, hr⟩ := hrow.split
    obtain ⟨r', hms, -⟩ := hr.split
    exact hms.cut_last (ne_lineComment hs) fun d hd => Terminal.ne_of_mem_separators (hv d hd)
  · obtain ⟨w, hw, -, hread⟩ := hscans.exists_read
    rw [List.flatMap_append] at hw
    rw [List.append_cancel_right hw]
    exact (hread v (.inr hv)).moved i

end Phrase
end ProbeScript
