import ProbeScript.Proofs.Text.Row

/-! Fillers: white space and complete comments, one after the other. Wherever a filler stands at the
head of a text it falls into segments of its own, and blanking leaves only white space of it. -/
namespace ProbeScript

/-- The rest of a block comment that closes as many others as `depth` says and then itself. Marks
are told from left to right and do not overlap. -/
inductive Segment.Closes : Nat → Text → Prop
  | last : Closes 0 ['*', '/']
  | closing {depth : Nat} {t : Text} : Closes depth t → Closes (depth + 1) ('*' :: '/' :: t)
  | opening {depth : Nat} {t : Text} : Closes (depth + 1) t → Closes depth ('/' :: '*' :: t)
  | other {depth : Nat} {c d : Char} {t : Text} : ¬ (c = '/' ∧ d = '*') → ¬ (c = '*' ∧ d = '/') →
      Closes depth (d :: t) → Closes depth (c :: d :: t)

/-- White space and complete comments. A line comment has its line feed. -/
inductive Text.Filler : Text → Prop
  | nil : Filler []
  | space {c : Char} {t : Text} : isLayout c = true → Filler t → Filler (c :: t)
  | line {body t : Text} : '\n' ∉ body → Filler t → Filler ('/' :: '/' :: body ++ '\n' :: t)
  | block {body t : Text} : Segment.Closes 0 body → Filler t → Filler ('/' :: '*' :: body ++ t)

namespace Segment
open Text
variable {f t u : Text}

/-- The comment is taken up to the mark that closes it, whatever follows. -/
private theorem Closes.closeBlock_eq {depth : Nat} (h : Closes depth t) (u : Text) :
    closeBlock depth (t ++ u) = some (t, u) := by
  induction h with
  | last => rfl
  | closing _ ih => simp [closeBlock, ih]
  | opening _ ih => simp [closeBlock, ih]
  | other hopen hclose _ ih =>
    rw [List.cons_append, List.cons_append, closeBlock_cons, ← List.cons_append, ih]
    · rfl
    · rintro r rfl hd
      exact hopen ⟨rfl, (List.cons.inj hd).1⟩
    · rintro r rfl hd
      exact hclose ⟨rfl, (List.cons.inj hd).1⟩

private theorem first_blockComment {body : Text} (h : Closes 0 body) (u : Text) :
    first 0 '/' ('*' :: body ++ u) = .ok (blockComment ('/' :: '*' :: body), u) := by
  rw [List.cons_append, first, h.closeBlock_eq]

private theorem first_layout {c : Char} (hc : isLayout c = true) (u : Text) :
    first 0 c u = .ok (plain c, u) := by
  refine first_plain (by simp [inAlphabet, hc]) ?_
  rintro rfl
  cases hc

/-- A filler falls into segments of its own, and white space is left of it. -/
theorem exists_row_of_filler (h : Filler f) (u : Text) :
    ∃ ss, Row (f ++ u) ss u ∧ ∀ c ∈ ss.flatMap blanked, isLayout c = true := by
  have hplain {c : Char} {ss : List Segment} (hc : isLayout c = true)
      (hss : ∀ c ∈ ss.flatMap blanked, isLayout c = true) :
      ∀ d ∈ (plain c :: ss).flatMap blanked, isLayout d = true :=
    List.forall_mem_cons.2 ⟨hc, hss⟩
  induction h with
  | nil => exact ⟨[], .done u, by simp⟩
  | @space c t hc _ ih =>
    obtain ⟨ss, hrow, hlayout⟩ := ih
    exact ⟨plain c :: ss, .more (first_layout hc _) hrow, hplain hc hlayout⟩
  | @line body t hbody _ ih =>
    obtain ⟨ss, hrow, hlayout⟩ := ih
    have hcomment := first_line (u := '\n' :: (t ++ u)) hbody fun _ hd => (Option.some.inj hd).symm
    refine ⟨lineComment ('/' :: '/' :: body) :: plain '\n' :: ss, ?_,
      List.forall_mem_append.2 ⟨isLayout_of_isComment rfl, hplain rfl hlayout⟩⟩
    rw [List.append_assoc]
    exact .more hcomment (.more (first_layout rfl _) hrow)
  | @block body t hbody _ ih =>
    obtain ⟨ss, hrow, hlayout⟩ := ih
    refine ⟨blockComment ('/' :: '*' :: body) :: ss, ?_,
      List.forall_mem_append.2 ⟨isLayout_of_isComment rfl, hlayout⟩⟩
    rw [List.append_assoc]
    exact .more (first_blockComment hbody (t ++ u)) hrow

end Segment
end ProbeScript
