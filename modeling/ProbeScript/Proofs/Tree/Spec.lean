import ProbeScript.Proofs.Tree.Form
import ProbeScript.Phrase.Tree

/-! Event specifications and their parts. The text of the parts is split into these parts again, and
a text that is split is the text of its parts. -/
namespace ProbeScript

namespace Text
variable {mark c : Char} {t p : Text}

private theorem pieces_eq_splitOn (mark : Char) (t : Text) : pieces mark t = t.splitOn mark := by
  induction t with
  | nil => rfl
  | cons c t ih =>
    rw [pieces, List.splitOn_cons_eq_if_modifyHead, ih]
    obtain ⟨p, ps, h⟩ := List.exists_cons_of_ne_nil (List.splitOn_ne_nil mark t)
    rw [h]
    rfl

private theorem intercalate_pieces (mark : Char) (t : Text) :
    List.intercalate [mark] (pieces mark t) = t := by
  rw [pieces_eq_splitOn, List.intercalate_splitOn]

theorem pieces_intercalate {ps : List Text} (hne : ps ≠ []) (h : ∀ p ∈ ps, mark ∉ p) :
    pieces mark (List.intercalate [mark] ps) = ps := by
  rw [pieces_eq_splitOn, List.splitOn_intercalate mark h hne]

private theorem pieces_ne_nil (mark : Char) (t : Text) : pieces mark t ≠ [] := by
  rw [pieces_eq_splitOn]
  exact List.splitOn_ne_nil mark t

theorem length_pieces (mark : Char) (t : Text) : (pieces mark t).length = t.count mark + 1 := by
  induction t with
  | nil => rfl
  | cons c t ih =>
    obtain ⟨p, ps, h⟩ := List.exists_cons_of_ne_nil (pieces_ne_nil mark t)
    rw [h] at ih
    rw [pieces, h, List.count_cons]
    split
    · rw [List.length_cons, ih]
    · exact ih

/-- The pieces hold the characters of the text but for the mark. -/
private theorem flatten_pieces (mark : Char) (t : Text) :
    (pieces mark t).flatten = t.filter (· != mark) := by
  induction t with
  | nil => rfl
  | cons c t ih =>
    obtain ⟨p, ps, h⟩ := List.exists_cons_of_ne_nil (pieces_ne_nil mark t)
    rw [h, List.flatten_cons] at ih
    rw [pieces, h, List.filter_cons, ← ih]
    cases hc : c == mark
    · simp [bne, hc]
    · simp [bne, hc]

theorem mem_pieces_iff : (∃ p ∈ pieces mark t, c ∈ p) ↔ c ∈ t ∧ c ≠ mark := by
  rw [← List.mem_flatten, flatten_pieces, List.mem_filter, bne_iff_ne]

end Text

namespace ProbeSpec
variable {parts : List (Option Text)} {t : Text}

theorem getD_part (p : Text) : (part p).getD [] = p := by
  cases p <;> rfl

theorem part_getD {x : Option Text} (h : Node.IsPart x) : part (x.getD []) = x := by
  cases x with
  | none => rfl
  | some p =>
    obtain ⟨c, p, rfl⟩ := List.exists_cons_of_ne_nil (h p rfl).1
    rfl

theorem isPart_part {p : Text} (h : ∀ c ∈ p, Phrase.isSpecChar c = true) :
    Node.IsPart (part p) := by
  cases p with
  | nil => exact fun t ht => by cases ht
  | cons c p =>
    intro t ht
    obtain rfl := Option.some.inj ht
    exact ⟨List.cons_ne_nil _ _, h⟩

theorem isSpecChar_colon : Phrase.isSpecChar ':' = false := by decide

/-- Splitting is the inverse of writing the parts one after the other. -/
theorem split?_eq_some_iff :
    split? t = some parts ↔ Node.IsSpec parts ∧ Node.specText parts = t := by
  constructor
  · intro h
    rw [split?, Option.ite_none_right_eq_some] at h
    obtain ⟨⟨hne, hall, hcount⟩, hparts⟩ := h
    obtain rfl := Option.some.inj hparts
    have hlen := Text.length_pieces ':' t
    have hchars : ∀ p ∈ Text.pieces ':' t, ∀ c ∈ p, Phrase.isSpecChar c = true := by
      intro p hp c hc
      obtain ⟨hct, hcolon⟩ := Text.mem_pieces_iff.1 ⟨p, hp, hc⟩
      have hspec := List.all_eq_true.1 hall c hct
      rw [Bool.or_eq_true, beq_iff_eq] at hspec
      exact hspec.resolve_right hcolon
    have htext : Node.specText ((Text.pieces ':' t).map part) = t := by
      have hid : (·.getD []) ∘ part = id := funext getD_part
      rw [Node.specText, List.map_map, hid, List.map_id, Text.intercalate_pieces]
    refine ⟨⟨?_, ?_, ?_, ?_⟩, htext⟩
    · simpa using Text.pieces_ne_nil ':' t
    · rw [List.length_map]
      omega
    · exact List.forall_mem_map.2 fun p hp => isPart_part (hchars p hp)
    · intro hnone
      rw [hnone] at htext
      exact hne htext.symm
  · rintro ⟨h, rfl⟩
    have hcolon : ∀ p ∈ parts.map (·.getD []), ':' ∉ p := by
      refine List.forall_mem_map.2 fun x hx hmem => ?_
      cases x with
      | none => cases hmem
      | some p =>
        have hspec := (h.isPart _ hx p rfl).2 ':' hmem
        rw [isSpecChar_colon] at hspec
        cases hspec
    have hpieces := Text.pieces_intercalate (by simpa using h.ne_nil) hcolon
    have hparts : (Text.pieces ':' (Node.specText parts)).map part = parts := by
      rw [Node.specText, hpieces, List.map_map]
      exact (List.map_congr_left fun x hx => part_getD (h.isPart x hx)).trans (List.map_id parts)
    rw [split?, if_pos, hparts]
    refine ⟨?_, ?_, ?_⟩
    · intro hnil
      rw [hnil] at hparts
      exact h.ne_none hparts.symm
    · rw [List.all_eq_true]
      intro c hc
      rw [Bool.or_eq_true, beq_iff_eq]
      by_cases hcolon : c = ':'
      · exact .inr hcolon
      · left
        obtain ⟨p, hp, hcp⟩ := Text.mem_pieces_iff.2 ⟨hc, hcolon⟩
        rw [Node.specText, hpieces] at hp
        obtain ⟨x, hx, rfl⟩ := List.mem_map.1 hp
        cases x with
        | none => cases hcp
        | some p => exact (h.isPart _ hx p rfl).2 c hcp
    · have hlen := Text.length_pieces ':' (Node.specText parts)
      have hle := h.length_le
      rw [Node.specText, hpieces, List.length_map] at hlen
      rw [Node.specText]
      omega

end ProbeSpec

theorem Node.IsSpec.spells {parts : List (Option Text)} (h : IsSpec parts) :
    Phrase.Terminal.probeSpec.Spells (specText parts) := by
  have hsplit := ProbeSpec.split?_eq_some_iff.2 ⟨h, rfl⟩
  rw [ProbeSpec.split?, Option.ite_none_right_eq_some] at hsplit
  obtain ⟨⟨hne, hall, -⟩, -⟩ := hsplit
  exact .spec hne (List.all_eq_true.1 hall)

end ProbeScript
