import Mathlib.Data.List.TakeWhile
import ProbeScript.Text.Segment

/-! Segments one after the other, with the text that is left after them. What a segment is depends
on the text after it by its first character at most, and a line feed there changes nothing. -/
namespace ProbeScript.Segment

variable {c : Char} {s : Segment} {t u v rest after : Text} {ss ss' : List Segment}

/-- The segments stand at the head of the first text; the second is left after them. -/
inductive Row : Text → List Segment → Text → Prop
  | done (t : Text) : Row t [] t
  | more {c : Char} {rest after u : Text} {s : Segment} {ss : List Segment} :
    first 0 c rest = .ok (s, after) → Row after ss u → Row (c :: rest) (s :: ss) u

/-- A character that begins neither a string nor a comment stands alone, if it may. -/
theorem first_other (i : Nat) (hstring : c ≠ '"') (hline : ∀ r, c = '/' → rest ≠ '/' :: r)
    (hblock : ∀ r, c = '/' → rest ≠ '*' :: r) : first i c rest =
      if inAlphabet c then .ok (plain c, rest) else .error (.invalidCharacter i c) := by
  rw [first]
  · exact hstring
  · rintro r rfl rfl
    exact hline r rfl rfl
  · rintro r rfl rfl
    exact hblock r rfl rfl

/-- The index of a segment matters to faults only. -/
theorem first_index {i : Nat} (h : first i c rest = .ok (s, after)) (j : Nat) :
    first j c rest = .ok (s, after) := by
  revert h
  fun_cases first i c rest with
  | case1 | case4 | case7 => intro h; cases h
  | case2 rest q tail hq => simp [first, hq]
  | case3 rest => simp [first]
  | case5 rest body tail hb => simp [first, hb]
  | case6 c rest hstring hline hblock halphabet =>
    rintro ⟨⟩
    rw [first_other j hstring hline hblock, if_pos halphabet]

theorem split_eq_ok_iff {i : Nat} : split i t = .ok ss ↔ Row t ss [] := by
  constructor
  · intro h
    fun_induction split i t generalizing ss with
    | case1 => cases h; exact .done []
    | case2 | case3 => cases h
    | case4 i c rest s after hs ss' hss ih =>
      cases h
      exact .more (first_index hs 0) (ih hss)
  · intro h
    generalize hu : ([] : Text) = u at h
    induction h generalizing i with
    | done => subst hu; rw [split]
    | @more c rest after u s ss hs _ ih =>
      rw [split, first_index hs i]
      dsimp only
      rw [ih hu]

namespace Row

theorem append (h : Row t ss u) (h' : Row u ss' v) : Row t (ss ++ ss') v := by
  induction h with
  | done => exact h'
  | more hs _ ih => exact .more hs (ih h')

/-- The text falls into segments in one way only. -/
theorem rest_unique (h : Row t ss u) (h' : Row t ss' []) :
    ∃ us, ss' = ss ++ us ∧ Row u us [] := by
  induction h generalizing ss' with
  | done => exact ⟨ss', rfl, h'⟩
  | more hs _ ih =>
    cases h' with
    | more hs' h' =>
      obtain ⟨rfl, rfl⟩ := Prod.mk.inj (Except.ok.inj (hs.symm.trans hs'))
      obtain ⟨us, rfl, hus⟩ := ih h'
      exact ⟨us, rfl, hus⟩

theorem text_eq (h : Row t ss u) : t = ss.flatMap text ++ u := by
  induction h with
  | done => rfl
  | more hs _ ih => rw [first_append hs, ih, List.flatMap_cons, List.append_assoc, ← ih]

theorem split (h : Row t (ss ++ ss') v) : ∃ u, Row t ss u ∧ Row u ss' v := by
  generalize hall : ss ++ ss' = all at h
  induction h generalizing ss with
  | done t =>
    obtain ⟨rfl, rfl⟩ := List.append_eq_nil_iff.1 hall
    exact ⟨t, .done t, .done t⟩
  | more hs h ih =>
    cases ss with
    | nil =>
      obtain rfl : ss' = _ := hall
      exact ⟨_, .done _, .more hs h⟩
    | cons s ss =>
      obtain ⟨rfl, hall'⟩ := List.cons.inj hall
      obtain ⟨u, hu, hv⟩ := ih hall'
      exact ⟨u, .more hs hu, hv⟩

end Row

private theorem closeBlock_ne_nil {depth : Nat} {body : Text}
    (h : closeBlock depth t = some (body, after)) : body ≠ [] := by
  rintro rfl
  fun_cases closeBlock depth t with
  | case5 => simp [closeBlock] at h
  | _ => simp_all [closeBlock]

/-- A character that is no part of a mark opens and closes nothing. -/
theorem closeBlock_cons {depth : Nat} (hopen : ∀ r, c = '/' → rest ≠ '*' :: r)
    (hclose : ∀ r, c = '*' → rest ≠ '/' :: r) : closeBlock depth (c :: rest) =
      (closeBlock depth rest).map fun (body, after) => (c :: body, after) := by
  rw [closeBlock.eq_def]
  split
  case h_1 heq =>
    obtain ⟨rfl, hr⟩ := List.cons.inj heq
    exact absurd hr (hopen _ rfl)
  case h_2 heq =>
    obtain ⟨rfl, hr⟩ := List.cons.inj heq
    exact absurd hr (hclose _ rfl)
  case h_3 heq =>
    obtain ⟨rfl, hr⟩ := List.cons.inj heq
    exact absurd hr (hclose _ rfl)
  case h_4 heq =>
    obtain ⟨rfl, rfl⟩ := List.cons.inj heq
    rfl
  case h_5 heq => cases heq

private theorem closeBlock_cut {depth : Nat} {body : Text}
    (h : closeBlock depth t = some (body, after)) (u : Text) :
    closeBlock depth (body ++ u) = some (body, u) := by
  fun_induction closeBlock depth t generalizing body with
  | case5 => simp at h
  | case2 =>
    obtain ⟨rfl, rfl⟩ := Prod.mk.inj (Option.some.inj h)
    simp [closeBlock]
  | case1 | case3 =>
    rename_i ih
    obtain ⟨⟨b, a⟩, hb, he⟩ := Option.map_eq_some_iff.1 h
    obtain ⟨rfl, rfl⟩ := Prod.mk.inj he
    simp [closeBlock, ih hb]
  | case4 depth c rest hopen hclose hclose' ih =>
    obtain ⟨⟨b, a⟩, hb, he⟩ := Option.map_eq_some_iff.1 h
    obtain ⟨rfl, rfl⟩ := Prod.mk.inj he
    -- the character after this one stays, so it still opens and closes nothing
    obtain ⟨d, b, rfl⟩ := List.exists_cons_of_ne_nil (closeBlock_ne_nil hb)
    obtain rfl := closeBlock_append hb
    have hb' := ih hb
    rw [List.cons_append, closeBlock_cons ?_ ?_, hb']
    · rfl
    · rintro r rfl hd
      obtain rfl := (List.cons.inj hd).1
      exact hopen _ rfl rfl
    · rintro r rfl hd
      obtain rfl := (List.cons.inj hd).1
      cases depth with
      | zero => exact hclose _ rfl rfl rfl
      | succ depth => exact hclose' _ _ rfl rfl rfl

/-- What a string literal holds ends at the next quotation mark. -/
theorem first_string {inner : Text} (h : '"' ∉ inner) (u : Text) :
    first 0 '"' (inner ++ '"' :: u) = .ok (string inner, u) := by
  have hall : ∀ a ∈ inner, (a != '"') = true := fun a ha => by
    simpa using fun he : a = '"' => h (he ▸ ha)
  rw [first, List.dropWhile_append_of_pos hall, List.takeWhile_append_of_pos hall]
  simp

/-- A line comment ends where the line or the text ends. -/
theorem first_line {body : Text} (h : '\n' ∉ body) (hu : ∀ d ∈ u.head?, d = '\n') :
    first 0 '/' ('/' :: body ++ u) = .ok (lineComment ('/' :: '/' :: body), u) := by
  have hall : ∀ a ∈ body, (a != '\n') = true := fun a ha => by
    simpa using fun he : a = '\n' => h (he ▸ ha)
  rw [List.cons_append, first, List.takeWhile_append_of_pos hall, List.dropWhile_append_of_pos hall]
  cases u with
  | nil => simp
  | cons d u =>
    obtain rfl := hu d rfl
    simp

theorem not_mem_takeWhile (c : Char) (t : Text) : c ∉ t.takeWhile (· != c) := by
  intro h
  simpa using List.mem_takeWhile_imp h

theorem head?_dropWhile_line (t : Text) : ∀ d ∈ (t.dropWhile (· != '\n')).head?, d = '\n' := by
  intro d hd
  have hline := List.head?_dropWhile_not (· != '\n') t
  rw [Option.mem_def.1 hd] at hline
  simpa using hline

/-- A line comment goes on until a line feed. -/
theorem Row.head?_after_line {body : Text} (h : Row t (ss ++ [lineComment body]) u) :
    ∀ c ∈ u.head?, c = '\n' := by
  obtain ⟨v, -, hlast⟩ := h.split
  cases hlast with
  | @more c rest after _ _ _ hfirst hdone =>
    cases hdone
    revert hfirst
    fun_cases first 0 c rest with
    | case3 rest =>
      rintro ⟨⟩
      exact head?_dropWhile_line rest
    | _ => intro hfirst; cases hfirst

/-- What follows a segment may change, so long as its first character stays or is a line feed, or
nothing follows. After a segment that is no line comment, all that matters is that it does not make
one. -/
theorem first_cut (h : first 0 c rest = .ok (s, after)) (hv : v.head? = after.head? ∨
      (∀ d ∈ v.head?, d = '\n') ∨
        (∀ body, s ≠ lineComment body) ∧ ∀ d ∈ v.head?, d ≠ '/' ∧ d ≠ '*') :
    ∃ rest', s.text ++ v = c :: rest' ∧ first 0 c rest' = .ok (s, v) := by
  revert h
  fun_cases first 0 c rest with
  | case1 | case4 | case7 => intro h; cases h
  | case2 rest q tail hq =>
    rintro ⟨⟩
    exact ⟨rest.takeWhile (· != '"') ++ '"' :: v, by simp [text],
      first_string (not_mem_takeWhile '"' rest) v⟩
  | case3 rest =>
    rintro ⟨⟩
    refine ⟨'/' :: rest.takeWhile (· != '\n') ++ v, by simp [text], ?_⟩
    apply first_line (not_mem_takeWhile '\n' rest)
    rcases hv with hv | hv | hv
    · rw [hv]
      exact head?_dropWhile_line rest
    · exact hv
    · exact absurd rfl (hv.1 _)
  | case5 rest body tail hb =>
    rintro ⟨⟩
    refine ⟨'*' :: body ++ v, by simp [text], ?_⟩
    rw [List.cons_append, first, closeBlock_cut hb]
  | case6 c rest hstring hline hblock halphabet =>
    rintro ⟨⟩
    refine ⟨v, rfl, ?_⟩
    rw [first_other 0 hstring, if_pos halphabet]
    · rintro r rfl rfl
      rcases hv with hv | hv | hv
      · obtain ⟨r, rfl⟩ := List.head?_eq_some_iff.1 hv.symm
        exact hline r rfl rfl
      · cases hv '/' rfl
      · exact absurd rfl (hv.2 '/' rfl).1
    · rintro r rfl rfl
      rcases hv with hv | hv | hv
      · obtain ⟨r, rfl⟩ := List.head?_eq_some_iff.1 hv.symm
        exact hblock r rfl rfl
      · cases hv '*' rfl
      · exact absurd rfl (hv.2 '*' rfl).2

theorem Row.cut (h : Row t ss u) (hv : v.head? = u.head? ∨ ∀ d ∈ v.head?, d = '\n') :
    Row (ss.flatMap text ++ v) ss v := by
  induction h with
  | done => exact .done v
  | @more c rest after u s ss hs h ih =>
    have hr := ih hv
    obtain ⟨rest', he, hs'⟩ := first_cut (v := ss.flatMap text ++ v) hs (by
      rw [h.text_eq]
      cases ss.flatMap text with
      | nil => exact hv.imp_right .inl
      | cons => exact .inl rfl)
    rw [List.flatMap_cons, List.append_assoc, he]
    exact .more hs' hr

theorem Row.cut_line (h : Row t ss u) (v : Text) :
    Row (ss.flatMap text ++ '\n' :: v) ss ('\n' :: v) :=
  h.cut (.inr fun _ hd => (Option.some.inj hd).symm)

theorem ne_lineComment (h : s.isComment = false) (body : Text) : s ≠ lineComment body := by
  rintro rfl
  cases h

/-- After a segment that is no line comment almost anything may follow. -/
theorem Row.cut_last (h : Row t (ss ++ [s]) u) (hs : ∀ body, s ≠ lineComment body)
    (hv : ∀ d ∈ v.head?, d ≠ '/' ∧ d ≠ '*') :
    Row ((ss ++ [s]).flatMap text ++ v) (ss ++ [s]) v := by
  obtain ⟨w, hss, hlast⟩ := h.split
  cases hlast with
  | @more c rest after _ _ _ hfirst hdone =>
    obtain ⟨rest', he, hfirst'⟩ := first_cut hfirst (.inr (.inr ⟨hs, hv⟩))
    have hcut := hss.cut (v := c :: rest') (.inl rfl)
    rw [List.flatMap_append, List.append_assoc, List.flatMap_singleton, he]
    exact hcut.append (.more hfirst' (.done v))

/-- What a segment holds: a string no quotation mark, a comment its marks, and else a character of
the alphabet stands alone. -/
def Sound : Segment → Prop
  | string inner => '"' ∉ inner
  | plain c => inAlphabet c = true
  | lineComment body | blockComment body => body ≠ []

theorem Row.sound (h : Row t ss u) : ∀ s ∈ ss, s.Sound := by
  induction h with
  | done => simp
  | @more c rest after u s ss hs _ ih =>
    refine List.forall_mem_cons.2 ⟨?_, ih⟩
    revert hs
    fun_cases first 0 c rest with
    | case1 | case4 | case7 => intro h; cases h
    | case2 rest =>
      rintro ⟨⟩
      exact not_mem_takeWhile '"' rest
    | case3 | case5 => rintro ⟨⟩; exact List.cons_ne_nil _ _
    | case6 c rest _ _ _ halphabet => rintro ⟨⟩; exact halphabet

/-- A character of the alphabet other than a slash stands alone. -/
theorem first_plain (halphabet : inAlphabet c = true) (hc : c ≠ '/') :
    first 0 c u = .ok (plain c, u) := by
  have hquote : c ≠ '"' := by
    rintro rfl
    cases halphabet
  rw [first_other 0 hquote (fun _ he => absurd he hc) (fun _ he => absurd he hc), if_pos halphabet]

/-- The text stays what it is before any other text: no comment stands or can begin in it. -/
def Kept (t : Text) : Prop := ∀ u, ∃ ss, Row (t ++ u) ss u ∧ ∀ s ∈ ss, s.isComment = false

namespace Kept

theorem nil : Kept [] := fun u => ⟨[], .done u, by simp⟩

theorem append (ht : Kept t) (hu : Kept u) : Kept (t ++ u) := by
  intro v
  obtain ⟨ss, hss, hcomment⟩ := ht (u ++ v)
  obtain ⟨us, hus, hcomment'⟩ := hu v
  refine ⟨ss ++ us, ?_, List.forall_mem_append.2 ⟨hcomment, hcomment'⟩⟩
  rw [List.append_assoc]
  exact hss.append hus

theorem char (halphabet : inAlphabet c = true) (hc : c ≠ '/') : Kept [c] :=
  fun u => ⟨[plain c], .more (first_plain halphabet hc) (.done u), by simp [isComment]⟩

/-- A word without slashes. -/
theorem word (h : ∀ c ∈ t, inAlphabet c = true ∧ c ≠ '/') : Kept t := by
  induction t with
  | nil => exact .nil
  | cons c t ih =>
    obtain ⟨⟨halphabet, hc⟩, ht⟩ := List.forall_mem_cons.1 h
    exact (Kept.char halphabet hc).append (ih ht)

theorem string (h : '"' ∉ t) : Kept ('"' :: t ++ ['"']) := by
  intro u
  refine ⟨[.string t], ?_, by simp [isComment]⟩
  rw [List.append_assoc, List.cons_append]
  exact .more (first_string h u) (.done u)

/-- A slash opens a comment only before another slash or a star. -/
theorem slash (h : Kept (c :: t)) (hslash : c ≠ '/') (hstar : c ≠ '*') : Kept ('/' :: c :: t) := by
  intro u
  obtain ⟨ss, hss, hcomment⟩ := h u
  have hfirst : first 0 '/' (c :: t ++ u) = .ok (plain '/', c :: t ++ u) :=
    first_other 0 (by decide) (fun _ _ he => hslash (List.cons.inj he).1)
      fun _ _ he => hstar (List.cons.inj he).1
  exact ⟨plain '/' :: ss, .more hfirst hss, List.forall_mem_cons.2 ⟨rfl, hcomment⟩⟩

end Kept

theorem flatMap_blanked_of_plain (h : ∀ s ∈ ss, s.isComment = false) :
    ss.flatMap blanked = ss.flatMap text := by
  rw [List.flatMap, List.flatMap, List.map_congr_left fun s hs => ?_]
  rw [blanked, h s hs]
  rfl

theorem blanked_length (s : Segment) : s.blanked.length = s.text.length := by
  unfold blanked
  split
  · rw [List.length_map]
  · rfl

/-- Of a comment only white space is left. -/
theorem isLayout_of_isComment (h : s.isComment = true) :
    ∀ c ∈ s.blanked, Text.isLayout c = true := by
  rw [blanked, if_pos h]
  intro c hc
  obtain ⟨a, -, rfl⟩ := List.mem_map.1 hc
  rw [blank]
  split
  case isTrue ha =>
    rw [beq_iff_eq.1 ha]
    rfl
  case isFalse => rfl

theorem exists_cons_of_sound (h : s.Sound) : ∃ c rest, s.blanked = c :: rest := by
  cases s with
  | string inner => exact ⟨_, _, rfl⟩
  | plain c => exact ⟨_, _, rfl⟩
  | lineComment body | blockComment body =>
    obtain ⟨c, rest, rfl⟩ := List.exists_cons_of_ne_nil h
    exact ⟨_, _, rfl⟩

end ProbeScript.Segment

namespace ProbeScript.Text
open Segment

theorem blanked_eq_ok_iff {t u : Text} : blanked t = .ok u ↔
    ∃ ss, Row (unmarked t) ss [] ∧ u = ss.flatMap Segment.blanked := by
  simp only [blanked, ofText]
  constructor
  · intro h
    cases hs : split 0 (unmarked t) with
    | error fault => rw [hs] at h; cases h
    | ok ss =>
      rw [hs] at h
      exact ⟨ss, split_eq_ok_iff.1 hs, (Except.ok.inj h).symm⟩
  · rintro ⟨ss, hrow, rfl⟩
    rw [split_eq_ok_iff.2 hrow]
    rfl

/-- A text that falls into segments as it is does not begin with a byte order mark. -/
theorem unmarked_of_row {t : Text} {ss : List Segment} (h : Row t ss []) : unmarked t = t := by
  cases h with
  | done => rfl
  | @more c rest _ _ s ss hfirst _ =>
    have hc : c ≠ byteOrderMark := by
      rintro rfl
      cases hfirst
    rw [unmarked, if_neg (by simpa using hc)]

/-- Nothing is blanked where no comment stands. -/
theorem blanked_of_kept {t : Text} (h : Kept t) : blanked t = .ok t := by
  obtain ⟨ss, hrow, hplain⟩ := h []
  rw [List.append_nil] at hrow
  refine blanked_eq_ok_iff.2 ⟨ss, (unmarked_of_row hrow).symm ▸ hrow, ?_⟩
  rw [flatMap_blanked_of_plain hplain, ← List.append_nil (ss.flatMap Segment.text), ← hrow.text_eq]

theorem marked_or_unmarked (t : Text) : (∃ rest, t = byteOrderMark :: rest) ∨ unmarked t = t := by
  cases t with
  | nil => exact .inr rfl
  | cons c t =>
    by_cases hmark : c = byteOrderMark
    · exact .inl ⟨t, hmark ▸ rfl⟩
    · exact .inr (by simp [unmarked, hmark])

theorem unmarked_of_head?_ne {t : Text} (h : t.head? ≠ some byteOrderMark) : unmarked t = t := by
  rcases marked_or_unmarked t with ⟨rest, rfl⟩ | ht
  · exact absurd rfl h
  · exact ht

theorem unmarked_length (t : Text) : (unmarked t).length = t.length := by
  cases t <;> rfl

/-- Only a byte order mark at the head is touched. -/
theorem getElem?_unmarked (t : Text) (k : Nat) : (unmarked t)[k]? =
    t[k]?.map fun c => if k = 0 ∧ c = byteOrderMark then ' ' else c := by
  cases t with
  | nil => rfl
  | cons c t => cases k <;> simp [unmarked]

theorem flatMap_blanked_length (ss : List Segment) :
    (ss.flatMap Segment.blanked).length = (ss.flatMap Segment.text).length := by
  rw [List.length_flatMap, List.length_flatMap, List.map_congr_left fun s _ => s.blanked_length]

/-- Of a mark at the head of a text only what comes before another text is touched. -/
theorem unmarked_take_append {t a b v : Text} (h : unmarked t = a ++ b)
    (hv : a = [] → ∀ c ∈ v.head?, c ≠ byteOrderMark) :
    unmarked (t.take a.length ++ v) = a ++ v := by
  cases a with
  | nil =>
    cases v with
    | nil => rfl
    | cons c v =>
      have hc := hv rfl c rfl
      simp [unmarked, hc]
  | cons a as =>
    cases t with
    | nil => cases h
    | cons c t =>
      obtain ⟨rfl, rfl⟩ := List.cons.inj h
      simp [unmarked]

/-- What does not begin with white space is not touched by what counts as a space. -/
theorem drop_of_unmarked {t a b : Text} (h : unmarked t = a ++ b)
    (hb : a = [] → ∀ c ∈ b.head?, isLayout c = false) : t.drop a.length = b := by
  cases t with
  | nil =>
    obtain ⟨rfl, rfl⟩ := List.append_eq_nil_iff.1 h.symm
    rfl
  | cons c t =>
    cases a with
    | cons a as =>
      obtain ⟨-, rfl⟩ := List.cons.inj h
      exact List.drop_left
    | nil =>
      obtain rfl : _ = b := h
      have hlayout := hb rfl _ rfl
      by_cases hmark : c = byteOrderMark
      · subst hmark
        cases hlayout
      · simp [unmarked, hmark]

/-- The segments before a place stay what they are when a line feed comes there; what is read of the
text after it does not depend on them. -/
theorem blanked_cut {t w u : Text} {ss ss' : List Segment}
    (h : Row (unmarked t) (ss ++ ss') []) :
    blanked (t.take (ss.flatMap Segment.text).length ++ '\n' :: w) = .ok u ↔
      ∃ us, Row w us [] ∧ u = ss.flatMap Segment.blanked ++ '\n' :: us.flatMap Segment.blanked := by
  obtain ⟨v, hv, -⟩ := h.split
  have hcut := hv.cut_line w
  have hline : Row ('\n' :: w) [plain '\n'] w := .more rfl (.done w)
  have hrow := hcut.append hline
  have hunmarked := unmarked_take_append (v := '\n' :: w) hv.text_eq fun _ c hc => by
    obtain rfl := Option.some.inj hc
    decide
  rw [blanked_eq_ok_iff, hunmarked]
  constructor
  · rintro ⟨all, hall, rfl⟩
    obtain ⟨us, rfl, hus⟩ := hrow.rest_unique hall
    exact ⟨us, hus, by simp [Segment.blanked, isComment, Segment.text]⟩
  · rintro ⟨us, hus, rfl⟩
    exact ⟨ss ++ [plain '\n'] ++ us, hrow.append hus,
      by simp [Segment.blanked, isComment, Segment.text]⟩

/-- Blanking keeps the length. -/
theorem blanked_length {t u : Text} (h : blanked t = .ok u) : u.length = t.length := by
  obtain ⟨ss, hrow, rfl⟩ := blanked_eq_ok_iff.1 h
  rw [flatMap_blanked_length, ← unmarked_length t, hrow.text_eq, List.append_nil]

end ProbeScript.Text
