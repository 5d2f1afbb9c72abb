import Mathlib.Data.Prod.Lex
import ProbeScript.Text.Position

/-! The order of the places in a text: by line, and within a line by column. The places of later
characters come later. -/
namespace ProbeScript

/-- A line and a column in it. -/
abbrev Place := Nat ×ₗ Nat

def Position.place (p : Position) : Place := toLex (p.line, p.column)

namespace Span

/-- Where the stretch begins. -/
def first (s : Span) : Place := toLex (s.line, s.column)

/-- Where the stretch ends, which is the place just past it. -/
def last (s : Span) : Place := toLex (s.endLine, s.endColumn)

end Span

/-- Without a line feed, more text only makes the last line longer. -/
theorem Text.lastLine_append_of_notMem {t u : Text} (h : '\n' ∉ u) :
    lastLine (t ++ u) = lastLine t ++ u := by
  have hall : ∀ c ∈ u.reverse, (c != '\n') = true := by
    intro c hc
    exact bne_iff_ne.2 fun he => h (he ▸ List.mem_reverse.1 hc)
  rw [lastLine, List.reverse_append, List.takeWhile_append_of_pos hall, List.reverse_append,
    List.reverse_reverse, lastLine]

/-- Up to a later index stands what stands up to an earlier one, and more. -/
theorem Text.exists_take_eq_append {t : Text} {i j : Nat} (hij : i ≤ j) (hj : j ≤ t.length) :
    ∃ u, t.take j = t.take i ++ u ∧ u.length = j - i := by
  refine ⟨(t.take j).drop i, ?_, ?_⟩
  · have htake := List.take_append_drop i (t.take j)
    rw [List.take_take, Nat.min_eq_left hij] at htake
    exact htake.symm
  · rw [List.length_drop, List.length_take, Nat.min_eq_left hj]

/-- A later index of a text, up to its end, is at a later place. -/
theorem Position.place_lt_place {t : Text} {i j : Nat} (hij : i < j) (hj : j ≤ t.length) :
    (Position.at t i).place < (Position.at t j).place := by
  obtain ⟨u, htake, hlen⟩ := Text.exists_take_eq_append hij.le hj
  refine Prod.Lex.toLex_lt_toLex.2 ?_
  simp only [Position.at, htake, List.count_append]
  by_cases hu : '\n' ∈ u
  · have := List.count_pos_iff.2 hu
    exact .inl (by omega)
  · refine .inr ⟨by rw [List.count_eq_zero_of_not_mem hu, Nat.add_zero], ?_⟩
    rw [Text.lastLine_append_of_notMem hu, List.length_append]
    omega

theorem Position.place_le_place {t : Text} {i j : Nat} (hij : i ≤ j) (hj : j ≤ t.length) :
    (Position.at t i).place ≤ (Position.at t j).place := by
  rcases hij.eq_or_lt with rfl | hij
  · exact le_rfl
  · exact (place_lt_place hij hj).le

/-- No two indices of a text are at one place. -/
theorem Position.index_unique {t : Text} {i j : Nat} (hi : i ≤ t.length) (hj : j ≤ t.length)
    (h : (Position.at t i).place = (Position.at t j).place) : i = j := by
  rcases Nat.lt_trichotomy i j with hij | hij | hji
  · exact absurd h (place_lt_place hij hj).ne
  · exact hij
  · exact absurd h (place_lt_place hji hi).ne'

end ProbeScript
