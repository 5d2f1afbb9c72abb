import Mathlib.Data.List.Forall2
import ProbeScript.Proofs.Text.Row

/-! What blanking keeps. The line and the column of a place depend on where the line feeds stand and
on nothing else; blanking changes characters to spaces and keeps the line feeds, so it keeps lines
and columns. A text that has been blanked holds no comment, so it is not changed again. -/
namespace ProbeScript

namespace Text
variable {t u v : Text} {i : Nat}

/-- The texts are of one length, with their line feeds in the same places. -/
def SameLines (t u : Text) : Prop := t.map (· == '\n') = u.map (· == '\n')

namespace SameLines

private theorem length_eq (h : SameLines t u) : t.length = u.length := by
  simpa using congrArg List.length h

private theorem take (h : SameLines t u) (i : Nat) : SameLines (t.take i) (u.take i) := by
  rw [SameLines, List.map_take, List.map_take, h]

private theorem count_eq (h : SameLines t u) : t.count '\n' = u.count '\n' := by
  have hcount (t : Text) : t.count '\n' = (t.map (· == '\n')).countP id := by
    rw [List.countP_map]
    rfl
  rw [hcount, hcount, h]

private theorem length_lastLine (h : SameLines t u) :
    (lastLine t).length = (lastLine u).length := by
  have hline (t : Text) :
      (lastLine t).length = ((t.map (· == '\n')).reverse.takeWhile (!·)).length := by
    rw [lastLine, List.length_reverse, ← List.map_reverse, List.takeWhile_map, List.length_map]
    rfl
  rw [hline, hline, h]

end SameLines

/-- What blanking leaves of a character: the character or a space. Line feeds stay. -/
def Leaves (c d : Char) : Prop := d = c ∨ c ≠ '\n' ∧ d = ' '

private theorem SameLines.of_leaves (h : List.Forall₂ Leaves t u) : SameLines t u := by
  induction h with
  | nil => rfl
  | @cons c d t u hcd _ ih =>
    have hfeed : (c == '\n') = (d == '\n') := by
      rcases hcd with rfl | ⟨hc, rfl⟩
      · rfl
      · simpa using hc
    rw [SameLines, List.map_cons, List.map_cons, hfeed, ih]

end Text

namespace Position
variable {t u : Text}

theorem line_eq (h : Text.SameLines t u) (i : Nat) :
    (Position.at t i).line = (Position.at u i).line := by
  rw [Position.at, Position.at, (h.take i).count_eq]

theorem column_eq (h : Text.SameLines t u) (i : Nat) :
    (Position.at t i).column = (Position.at u i).column := by
  rw [Position.at, Position.at, (h.take i).length_lastLine, h.length_eq]

end Position

theorem Span.between_eq {t u : Text} (h : Text.SameLines t u) (i j : Nat) :
    Span.between t i j = Span.between u i j := by
  simp only [Span.between, Position.line_eq h, Position.column_eq h]

namespace Segment
open Text

theorem blank_eq (c : Char) : blank c = if c = '\n' then '\n' else ' ' := by
  by_cases hfeed : c = '\n' <;> simp [blank, hfeed]

private theorem leaves_blanked (s : Segment) : List.Forall₂ Leaves s.text s.blanked := by
  rw [blanked]
  split
  · rw [List.forall₂_map_right_iff, List.forall₂_same]
    intro c _
    rw [blank_eq]
    split
    case isTrue hc => exact .inl hc.symm
    case isFalse hc => exact .inr ⟨hc, rfl⟩
  · exact List.forall₂_same.2 fun c _ => .inl rfl

private theorem leaves_flatMap_blanked (ss : List Segment) :
    List.Forall₂ Leaves (ss.flatMap text) (ss.flatMap blanked) := by
  induction ss with
  | nil => exact .nil
  | cons s ss ih => exact List.rel_append s.leaves_blanked ih

/-- After blanking segments begin with the same character, or with white space. -/
private theorem head?_flatMap_blanked {ss : List Segment} (h : ∀ s ∈ ss, s.Sound) :
    (ss.flatMap blanked).head? = (ss.flatMap text).head? ∨
      ∃ s ∈ ss.head?, s.isComment = true ∧ ∀ d ∈ (ss.flatMap blanked).head?, isLayout d = true := by
  cases ss with
  | nil => exact .inl rfl
  | cons s ss =>
    obtain ⟨c, rest, hc⟩ := exists_cons_of_sound (h s List.mem_cons_self)
    rw [List.flatMap_cons, List.flatMap_cons]
    cases hs : s.isComment with
    | false =>
      left
      rw [hc, show s.text = c :: rest by rw [← hc, blanked, hs]; rfl]
      rfl
    | true =>
      right
      refine ⟨s, rfl, hs, fun d hd => ?_⟩
      rw [hc] at hd
      obtain rfl := Option.some.inj hd
      exact isLayout_of_isComment hs c (hc ▸ List.mem_cons_self)

theorem kept_of_isLayout {t : Text} (h : ∀ c ∈ t, isLayout c = true) : Kept t := by
  refine .word fun c hc => ⟨by simp [inAlphabet, h c hc], ?_⟩
  rintro rfl
  have := h '/' hc
  cases this

/-- A comment begins with a slash. -/
theorem Row.head?_of_isComment {t u : Text} {s : Segment} {ss : List Segment}
    (h : Row t (s :: ss) u) (hs : s.isComment = true) : t.head? = some '/' := by
  cases h with
  | @more c rest after _ _ _ hfirst _ =>
    revert hfirst
    fun_cases first 0 c rest with
    | case1 | case4 | case7 => intro h; cases h
    | case2 | case6 => rintro ⟨⟩; cases hs
    | case3 | case5 => intro _; rfl

/-- A text begins with the character that it begins with blanked, or with a slash. -/
theorem Row.forall_head? {t : Text} {ss : List Segment} {P : Char → Prop} (h : Row t ss [])
    (hslash : P '/') (hP : ∀ c ∈ (ss.flatMap blanked).head?, P c) : ∀ c ∈ t.head?, P c := by
  intro c hc
  rcases head?_flatMap_blanked h.sound with he | ⟨s, hs, hcomment, -⟩
  · rw [h.text_eq, List.append_nil] at hc
    exact hP c (he ▸ hc)
  · obtain ⟨ss, rfl⟩ := List.head?_eq_some_iff.1 hs
    rw [h.head?_of_isComment hcomment] at hc
    exact Option.some.inj hc ▸ hslash

/-- Where no comment begins blanking does not change what a text begins with. -/
theorem Row.head?_blanked {t : Text} {ss : List Segment} (h : Row t ss [])
    (hss : ∀ s ∈ ss.head?, s.isComment = false) : (ss.flatMap blanked).head? = t.head? := by
  rcases head?_flatMap_blanked h.sound with he | ⟨s, hs, hcomment, -⟩
  · rw [he, h.text_eq, List.append_nil]
  · rw [hss s hs] at hcomment
    cases hcomment

/-- Up to a slash or white space blanking changes nothing. -/
theorem Row.takeWhile_blanked {t : Text} {ss : List Segment} {p : Char → Bool} (h : Row t ss [])
    (hslash : p '/' = false) (hlayout : ∀ c, isLayout c = true → p c = false) :
    (ss.flatMap blanked).takeWhile p = t.takeWhile p := by
  generalize hu : ([] : Text) = u at h
  induction h with
  | done t => rw [← hu]; rfl
  | @more c rest after u s ss hfirst hrest ih =>
    have ht := first_append hfirst
    cases hs : s.isComment with
    | true =>
      have hrow := Row.more hfirst hrest
      obtain rfl : c = '/' := Option.some.inj (hrow.head?_of_isComment hs)
      obtain ⟨d, w, hd⟩ := exists_cons_of_sound (hrow.sound s List.mem_cons_self)
      have hd' := hlayout d (isLayout_of_isComment hs d (hd ▸ List.mem_cons_self))
      rw [List.flatMap_cons, hd, List.cons_append, List.takeWhile_cons, if_neg (by simp [hd']),
        List.takeWhile_cons, if_neg (by simp [hslash])]
    | false =>
      rw [ht, List.flatMap_cons, show s.blanked = s.text by rw [blanked, hs]; rfl,
        List.takeWhile_append, List.takeWhile_append, ih hu]

/-- Blanked segments are a row of others, none of them a comment. -/
theorem Row.exists_blanked {t : Text} {ss : List Segment} (h : Row t ss []) :
    ∃ ss', Row (ss.flatMap blanked) ss' [] ∧ ∀ s ∈ ss', s.isComment = false := by
  generalize hu : ([] : Text) = u at h
  induction h with
  | done => exact ⟨[], hu ▸ .done [], by simp⟩
  | @more c rest after u s ss hfirst hrest ih =>
    obtain ⟨ss', hrow, hplain⟩ := ih hu
    rw [List.flatMap_cons]
    cases hs : s.isComment with
    | true =>
      obtain ⟨ls, hls, hlayout⟩ := kept_of_isLayout (isLayout_of_isComment hs) (ss.flatMap blanked)
      exact ⟨ls ++ ss', hls.append hrow, List.forall_mem_append.2 ⟨hlayout, hplain⟩⟩
    | false =>
      have hhead : (ss.flatMap blanked).head? = after.head? ∨
          (∀ d ∈ (ss.flatMap blanked).head?, d = '\n') ∨ (∀ body, s ≠ lineComment body) ∧
            ∀ d ∈ (ss.flatMap blanked).head?, d ≠ '/' ∧ d ≠ '*' := by
        have hafter := hrest.text_eq
        rw [← hu, List.append_nil] at hafter
        rcases head?_flatMap_blanked hrest.sound with he | ⟨-, -, -, hlayout⟩
        · exact .inl (hafter ▸ he)
        · refine .inr (.inr ⟨ne_lineComment hs, fun d hd => ⟨?_, ?_⟩⟩) <;> rintro rfl <;>
            cases hlayout _ hd
      obtain ⟨rest', he, hfirst'⟩ := first_cut hfirst hhead
      rw [blanked, if_neg (by simp [hs]), he]
      exact ⟨s :: ss', .more hfirst' hrow, List.forall_mem_cons.2 ⟨hs, hplain⟩⟩

end Segment

namespace Text
open Segment
variable {t u : Text} {c : Char} {i : Nat}

/-- A stretch that is the same character by character stands in the other text as well. -/
theorem prefix_of_getElem? {v w : Text} (h : t.drop i = w ++ v)
    (hsame : ∀ k < w.length, u[i + k]? = t[i + k]?) : w <+: u.drop i := by
  rw [List.prefix_iff_getElem?]
  intro k hk
  rw [List.getElem?_drop, hsame k hk, ← List.getElem?_drop, h, List.getElem?_append_left hk]
  exact List.getElem?_eq_getElem hk

private theorem leaves_of_blanked (h : blanked t = .ok u) : List.Forall₂ Leaves t u := by
  obtain ⟨ss, hrow, rfl⟩ := blanked_eq_ok_iff.1 h
  have hleaves := leaves_flatMap_blanked ss
  rw [← List.append_nil (ss.flatMap Segment.text), ← hrow.text_eq] at hleaves
  cases t with
  | nil => exact hleaves
  | cons c t =>
    obtain ⟨d, u, hd, hrest, hu⟩ := List.forall₂_cons_left_iff.1 hleaves
    rw [hu]
    refine .cons ?_ hrest
    by_cases hmark : c = byteOrderMark
    · subst hmark
      -- a mark counts as a space, and blanking leaves a space
      have hspace : d = ' ' := hd.elim id And.right
      exact .inr ⟨by decide, hspace⟩
    · rwa [if_neg (by simpa using hmark)] at hd

theorem SameLines.of_blanked (h : blanked t = .ok u) : SameLines t u :=
  .of_leaves (leaves_of_blanked h)

/-- A character that is no space once the text is blanked stands in the text itself. -/
theorem getElem?_of_blanked (h : blanked t = .ok u) (hc : u[i]? = some c) (hne : c ≠ ' ') :
    t[i]? = some c := by
  obtain ⟨hi, rfl⟩ := List.getElem?_eq_some_iff.1 hc
  have hleaves := leaves_of_blanked h
  have hit : i < t.length := hleaves.length_eq ▸ hi
  rw [List.getElem?_eq_getElem hit]
  rcases hleaves.get hit hi with he | ⟨-, he⟩
  · exact congrArg some he.symm
  · exact absurd he hne

/-- What has been blanked is not changed by blanking it again. -/
theorem blanked_blanked (h : blanked t = .ok u) : blanked u = .ok u := by
  obtain ⟨ss, hrow, rfl⟩ := blanked_eq_ok_iff.1 h
  obtain ⟨ss', hrow', hplain⟩ := hrow.exists_blanked
  refine blanked_eq_ok_iff.2 ⟨ss', (unmarked_of_row hrow').symm ▸ hrow', ?_⟩
  rw [flatMap_blanked_of_plain hplain, ← List.append_nil (ss'.flatMap Segment.text),
    ← hrow'.text_eq]

end Text
end ProbeScript
