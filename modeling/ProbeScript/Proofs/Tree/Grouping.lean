import ProbeScript.Tree.Grouping

/-! Which groupings come of attaching operands one after the other: those in which no operator binds
more loosely than the one above it. -/
namespace ProbeScript.Grouping

variable {α : Type} {P : α → Prop} {op o : Operator} {g left right : Grouping α} {a : α}

/-- How tightly the grouping holds together: as its outermost operator, or more than any. -/
def tier : Grouping α → Nat
  | operand _ => 5
  | joined op _ _ => op.tier

/-- Operators of one tier group to the left, and the operands have the property. -/
inductive Ordered (P : α → Prop) : Grouping α → Prop
  | operand {a : α} : P a → Ordered P (operand a)
  | joined {op : Operator} {left right : Grouping α} : Ordered P left → Ordered P right →
      op.tier ≤ left.tier → op.tier < right.tier → Ordered P (joined op left right)

/-- An operator that binds no more tightly than the grouping takes it whole. -/
theorem attach_of_le (h : op.tier ≤ g.tier) : g.attach op a = joined op g (operand a) := by
  cases g with
  | operand => rfl
  | joined => exact if_neg (Nat.not_lt.2 h)

theorem attach_of_lt (h : o.tier < op.tier) :
    (joined o left right).attach op a = joined o left (right.attach op a) := by
  rw [attach, if_pos h]

private theorem tier_attach : (g.attach op a).tier = min g.tier op.tier := by
  by_cases h : op.tier ≤ g.tier
  · rw [attach_of_le h, Nat.min_eq_right h]
    rfl
  · cases g with
    | operand => exact absurd (Nat.le_of_lt op.tier_lt) h
    | joined =>
      rw [attach_of_lt (Nat.not_le.1 h), Nat.min_eq_left (Nat.le_of_not_le h)]
      rfl

theorem Ordered.attach (h : g.Ordered P) (ha : P a) : (g.attach op a).Ordered P := by
  have hop : op.tier < 5 := op.tier_lt
  induction h with
  | operand hb => exact .joined (.operand hb) (.operand ha) (Nat.le_of_lt hop) hop
  | @joined o left right hleft hright hle hlt _ ih =>
    by_cases ho : o.tier < op.tier
    · rw [attach_of_lt ho]
      refine .joined hleft ih hle ?_
      rw [tier_attach]
      exact Nat.lt_min.2 ⟨hlt, ho⟩
    · have hle' : op.tier ≤ (Grouping.joined o left right).tier := Nat.not_lt.1 ho
      rw [attach_of_le hle']
      exact .joined (.joined hleft hright hle hlt) (.operand ha) hle' hop

end ProbeScript.Grouping
