import ProbeScript.Journal
import ProbeScript.Proofs.Acceptance
import ProbeScript.Proofs.Text.Blanking
import ProbeScript.Proofs.Text.Division

/-! What becomes of a text before the grammar sees it, in terms of the segments it divides into:
when it is refused and where, and what is left of it otherwise. -/
namespace ProbeScript

open Segment
variable {t rest : Text} {ss : List Segment} {f : Fault}

namespace Segment

theorem Divides.unique {ss' : List Segment} (h : Divides t ss []) (h' : Divides t ss' []) :
    ss = ss' := by
  obtain ⟨us, rfl, hus⟩ := (row_iff_divides.2 h).rest_unique (row_iff_divides.2 h')
  cases hus
  exact (List.append_nil ss).symm

theorem ofText_eq_ok_iff : ofText t = .ok ss ↔ Divides (unmarked t) ss [] := by
  rw [ofText, split_eq_ok_iff, row_iff_divides]

/-- The index at which a fault is reported, for a text of the length. -/
def Fault.index (length : Nat) : Fault → Nat
  | .invalidCharacter i _ => i
  | .openString | .openComment _ => length

/-- The segment in which the character at the index stands. -/
def at? : List Segment → Nat → Option Segment
  | [], _ => none
  | s :: ss, k => if k < s.text.length then some s else at? ss (k - s.text.length)

/-- What is left of a character of the segment. In comments line feeds stay, and all else becomes a
space. -/
def left : Segment → Char → Char
  | string _, c | plain _, c => c
  | lineComment _, c | blockComment _, c => if c = '\n' then '\n' else ' '

private theorem left_space (s : Segment) : s.left ' ' = ' ' := by
  cases s <;> rfl

private theorem blanked_eq_map_left (s : Segment) : s.blanked = s.text.map s.left := by
  cases s with
  | string inner => exact (List.map_id _).symm
  | plain c => rfl
  | lineComment body | blockComment body => exact List.map_congr_left fun c _ => blank_eq c

/-- Blanking leaves of a character what its segment leaves of it. -/
private theorem exists_at?_of_getElem? {k : Nat} {c : Char}
    (hc : (ss.flatMap Segment.text)[k]? = some c) :
    ∃ s, at? ss k = some s ∧ (ss.flatMap blanked)[k]? = some (s.left c) := by
  induction ss generalizing k with
  | nil => cases hc
  | cons s ss ih =>
    rw [List.flatMap_cons] at hc
    rw [at?, List.flatMap_cons]
    by_cases hk : k < s.text.length
    · rw [List.getElem?_append_left hk] at hc
      refine ⟨s, if_pos hk, ?_⟩
      rw [List.getElem?_append_left (by rwa [blanked_length]), blanked_eq_map_left,
        List.getElem?_map, hc, Option.map_some]
    · rw [List.getElem?_append_right (Nat.le_of_not_lt hk)] at hc
      rw [if_neg hk, List.getElem?_append_right (by rw [blanked_length]; exact Nat.le_of_not_lt hk),
        blanked_length]
      exact ih hc

/-- The second text is what remains of the first, character by character, when it divides into the
segments. A byte order mark at the head gives way to a space. -/
def Remains (ss : List Segment) (t u : Text) : Prop :=
  u.length = t.length ∧ ∀ k c, t[k]? = some c →
    ∃ s, at? ss k = some s ∧ u[k]? = some (if k = 0 ∧ c = '\ufeff' then ' ' else s.left c)

private theorem Divides.remains (h : Divides (unmarked t) ss []) :
    Remains ss t (ss.flatMap blanked) := by
  have htext := (row_iff_divides.2 h).text_eq
  rw [List.append_nil] at htext
  refine ⟨by rw [Text.flatMap_blanked_length, ← htext, Text.unmarked_length], fun k c hc => ?_⟩
  have hget := Text.getElem?_unmarked t k
  rw [hc, Option.map_some, htext] at hget
  obtain ⟨s, hs, hleft⟩ := exists_at?_of_getElem? hget
  refine ⟨s, hs, hleft.trans (congrArg some ?_)⟩
  show s.left (if k = 0 ∧ c = '\ufeff' then ' ' else c) = _
  split
  case isTrue => exact s.left_space
  case isFalse => rfl

theorem Remains.unique {u v : Text} (hu : Remains ss t u) (hv : Remains ss t v) : u = v := by
  refine List.ext_getElem? fun k => ?_
  cases hc : t[k]? with
  | none =>
    have hk := List.getElem?_eq_none_iff.1 hc
    rw [List.getElem?_eq_none (hu.1 ▸ hk), List.getElem?_eq_none (hv.1 ▸ hk)]
  | some c =>
    obtain ⟨s, hs, hsu⟩ := hu.2 k c hc
    obtain ⟨s', hs', hsv⟩ := hv.2 k c hc
    obtain rfl := Option.some.inj (hs.symm.trans hs')
    exact hsu.trans hsv.symm

end Segment

theorem Text.blanked_eq_ok_iff_remains {u : Text} : Text.blanked t = .ok u ↔
    ∃ ss, Divides (unmarked t) ss [] ∧ Remains ss t u := by
  simp only [Text.blanked_eq_ok_iff, row_iff_divides]
  refine exists_congr fun ss => and_congr_right fun hss => ?_
  constructor
  · rintro rfl
    exact hss.remains
  · intro hu
    exact hu.unique hss.remains

theorem Text.blanked_eq_error_iff : Text.blanked t = .error f ↔ ∃ ss rest,
    Divides (unmarked t) ss rest ∧ Unformed (ss.flatMap Segment.text).length rest f := by
  have hsplit := split_eq_error_iff (i := 0) (t := unmarked t) (f := f)
  simp only [Nat.zero_add] at hsplit
  rw [← hsplit, Text.blanked, ofText]
  cases split 0 (unmarked t) <;> simp [Except.map]

namespace Journal

private theorem ofExpression_of_divides (h : Divides (unmarked t) ss []) :
    ofExpression t = [.blanked (ss.countP Segment.isComment) t.length] := by
  rw [ofExpression, ofText_eq_ok_iff.2 h]
  rfl

private theorem isPrefix_ofScript (t : Text) :
    .scriptBegun t.length :: ofExpression t <+: ofScript t :=
  List.prefix_append _ _

end Journal

private theorem Diagnostic.position_ofFault (t : Text) (f : Fault) :
    (ofFault t f).position = .at t (f.index t.length) := by
  cases f <;> rfl

/-- A text is taken exactly if it divides into segments, a byte order mark at its head counting as a
space. The division is unique; it says what is left of each character and how many comments are
counted. Otherwise the first segment that cannot be formed is reported: an invalid character at its
place, an open string or comment at the end of the text, and of a comment also the place where it
opens. -/
theorem Text.blanked_exact (t : Text) :
    (∀ k, (unmarked t)[k]? = t[k]?.map fun c => if k = 0 ∧ c = '\ufeff' then ' ' else c) ∧
    (∀ u, Text.blanked t = .ok u ↔ ∃ ss, Divides (unmarked t) ss [] ∧ u.length = t.length ∧
      ∀ k c, t[k]? = some c → ∃ s, at? ss k = some s ∧
        u[k]? = some (if k = 0 ∧ c = '\ufeff' then ' ' else s.left c)) ∧
    (∀ ss ss', Divides (unmarked t) ss [] → Divides (unmarked t) ss' [] → ss = ss') ∧
    (∀ u, Text.blanked t = .ok u → u.length = t.length ∧ Text.SameLines t u) ∧
    (∀ ss, Divides (unmarked t) ss [] →
      Journal.ofExpression t = [.blanked (ss.countP Segment.isComment) t.length] ∧
      [.scriptBegun t.length, .blanked (ss.countP Segment.isComment) t.length] <+:
        Journal.ofScript t) ∧
    (∀ f, Text.blanked t = .error f ↔ ∃ ss rest, Divides (unmarked t) ss rest ∧
      Unformed (ss.flatMap Segment.text).length rest f) ∧
    (∀ f, Text.blanked t = .error f → ∀ g : Goal, ∃ d, g.read t = .error (.lexical d) ∧
      d.position = .at t (f.index t.length) ∧
      ∀ i, f = .openComment i → d.summary = "Unterminated block comment opened at line ".toList ++
        Numeral.decimal (Position.at t i).line ++ ", column ".toList ++
          Numeral.decimal (Position.at t i).column) := by
  refine ⟨Text.getElem?_unmarked t, fun u => Text.blanked_eq_ok_iff_remains,
    fun ss ss' => Divides.unique, fun u hu => ?_, fun ss hss => ?_,
    fun f => Text.blanked_eq_error_iff, fun f hf g => ?_⟩
  · exact ⟨Text.blanked_length hu, .of_blanked hu⟩
  · have hjournal := Journal.ofExpression_of_divides hss
    exact ⟨hjournal, hjournal ▸ Journal.isPrefix_ofScript t⟩
  · refine ⟨_, g.read_of_fault hf, Diagnostic.position_ofFault t f, ?_⟩
    rintro i rfl
    rfl

end ProbeScript
