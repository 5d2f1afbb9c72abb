import ProbeScript.Proofs.Tree.Grouping

/-! Groupings laid flat: the operands from left to right with the operators between them. Attaching
operands one after the other keeps their order, and of all groupings of a row only one is ordered
by tiers. -/
namespace ProbeScript.Grouping

variable {α : Type} {P : α → Prop} {op : Operator} {g left right : Grouping α} {a : α}

/-- The operand at the left end. -/
def first : Grouping α → α
  | operand a => a
  | joined _ left _ => left.first

/-- The operand at the right end. -/
def last : Grouping α → α
  | operand a => a
  | joined _ _ right => right.last

/-- The operands after the first, each with the operator before it. -/
def rest : Grouping α → List (Operator × α)
  | operand _ => []
  | joined op left right => left.rest ++ (op, right.first) :: right.rest

def operands : Grouping α → List α
  | operand a => [a]
  | joined _ left right => left.operands ++ right.operands

private theorem first_attach (op : Operator) (a : α) (g : Grouping α) :
    (g.attach op a).first = g.first := by
  cases g with
  | operand => rfl
  | joined o left right =>
    rw [attach]
    split <;> rfl

private theorem rest_attach (op : Operator) (a : α) (g : Grouping α) :
    (g.attach op a).rest = g.rest ++ [(op, a)] := by
  induction g with
  | operand => rfl
  | joined o left right _ ih =>
    rw [attach]
    split
    · simp [rest, first_attach, ih]
    · rfl

private theorem flat_foldl (row : List (Operator × α)) (g : Grouping α) :
    (row.foldl (fun g (op, a) => g.attach op a) g).first = g.first ∧
      (row.foldl (fun g (op, a) => g.attach op a) g).rest = g.rest ++ row := by
  induction row generalizing g with
  | nil => simp
  | cons x row ih =>
    obtain ⟨hfirst, hrest⟩ := ih (g.attach x.1 x.2)
    rw [List.foldl_cons]
    refine ⟨hfirst.trans (first_attach ..), ?_⟩
    rw [hrest, rest_attach, List.append_assoc]
    rfl

theorem first_ofList (first : α) (row : List (Operator × α)) : (ofList first row).first = first :=
  (flat_foldl row (operand first)).1

theorem rest_ofList (first : α) (row : List (Operator × α)) : (ofList first row).rest = row :=
  (flat_foldl row (operand first)).2

private theorem Ordered.foldl {row : List (Operator × α)} (h : g.Ordered P)
    (hrow : ∀ x ∈ row, P x.2) :
    (row.foldl (fun g (op, a) => g.attach op a) g).Ordered P := by
  induction row generalizing g with
  | nil => exact h
  | cons x row ih =>
    obtain ⟨hx, hrow⟩ := List.forall_mem_cons.1 hrow
    exact ih (h.attach hx) hrow

theorem Ordered.ofList {first : α} {row : List (Operator × α)} (h : P first)
    (hrow : ∀ x ∈ row, P x.2) : (Grouping.ofList first row).Ordered P :=
  Ordered.foldl (.operand h) hrow

/-- No operator of an ordered grouping binds more loosely than the outermost one. -/
theorem Ordered.tier_le (h : g.Ordered P) : ∀ x ∈ g.rest, g.tier ≤ x.1.tier := by
  induction h with
  | operand => simp [rest]
  | @joined op left right _ _ hle hlt ihleft ihright =>
    rw [rest, List.forall_mem_append, List.forall_mem_cons]
    refine ⟨fun x hx => ?_, Nat.le_refl _, fun x hx => ?_⟩
    · exact Nat.le_trans hle (ihleft x hx)
    · exact Nat.le_trans (Nat.le_of_lt hlt) (ihright x hx)

end ProbeScript.Grouping
