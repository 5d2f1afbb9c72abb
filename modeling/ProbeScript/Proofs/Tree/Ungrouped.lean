import ProbeScript.Proofs.Tree.Form

/-! Trees without parentheses: what is left of a tree when only the order in which its operators are
applied counts. -/
namespace ProbeScript.Node

open Phrase (asArgument)

mutual

/-- The tree without its nodes for parentheses. -/
def ungrouped : Node → Node
  | parenthesized inner _ => inner.ungrouped
  | binary op left right span => .binary op left.ungrouped right.ungrouped span
  | tuple values span => .tuple (ungroupedAll values) span
  | call name args span => .call name (ungroupedAll args) span
  | assignment target value span => .assignment target.ungrouped value.ungrouped span
  | probe event predicate body span =>
    .probe event.ungrouped (ungroupedSome predicate) (ungroupedAll body) span
  | script probes span => .script (ungroupedAll probes) span
  | plain span => .plain span
  | identifier name span => .identifier name span
  | integer value base span => .integer value base span
  | string value span => .string value span
  | spec parts span => .spec parts span

def ungroupedAll : List Node → List Node
  | [] => []
  | n :: ns => n.ungrouped :: ungroupedAll ns

def ungroupedSome : Option Node → Option Node
  | none => none
  | some n => some n.ungrouped

end

mutual

private theorem ungrouped_bare : (n : Node) → n.bare.ungrouped = n.ungrouped.bare
  | .plain _ | .identifier .. | .integer .. | .string .. | .spec .. => rfl
  | .binary _ l r _ => by simp only [bare, ungrouped, ungrouped_bare l, ungrouped_bare r]
  | .parenthesized i _ => by simp only [bare, ungrouped, ungrouped_bare i]
  | .tuple vs _ => by simp only [bare, ungrouped, ungroupedAll_bareAll vs]
  | .call _ vs _ => by simp only [bare, ungrouped, ungroupedAll_bareAll vs]
  | .assignment t v _ => by simp only [bare, ungrouped, ungrouped_bare t, ungrouped_bare v]
  | .probe e p vs _ => by
    simp only [bare, ungrouped, ungrouped_bare e, ungroupedSome_bareSome p, ungroupedAll_bareAll vs]
  | .script vs _ => by simp only [bare, ungrouped, ungroupedAll_bareAll vs]

private theorem ungroupedAll_bareAll :
    (ns : List Node) → ungroupedAll (bareAll ns) = bareAll (ungroupedAll ns)
  | [] => rfl
  | n :: ns => by simp only [bareAll, ungroupedAll, ungrouped_bare n, ungroupedAll_bareAll ns]

private theorem ungroupedSome_bareSome :
    (n : Option Node) → ungroupedSome (bareSome n) = bareSome (ungroupedSome n)
  | none => rfl
  | some n => by simp only [bareSome, ungroupedSome, ungrouped_bare n]

end

private theorem ungroupedAll_eq (ns : List Node) : ungroupedAll ns = ns.map ungrouped := by
  induction ns with
  | nil => rfl
  | cons n ns ih => rw [ungroupedAll, ih, List.map_cons]

/-- The tree without parentheses and without stretches of text. -/
def core (n : Node) : Node := n.ungrouped.bare

variable {n m : Node}

theorem core_eq_of_bare (h : n.bare = m.bare) : n.core = m.core := by
  rw [core, core, ← ungrouped_bare, ← ungrouped_bare, h]

theorem same_ungrouped_iff (n m : Node) : n.ungrouped.same m.ungrouped = true ↔ n.core = m.core :=
  same_iff _ _

theorem core_binary (op : Operator) (left right : Node) (span : Option Span) :
    (binary op left right span).core = .binary op left.core right.core none :=
  rfl

theorem core_call (name : Text) (args : List Node) (span : Option Span) :
    (call name args span).core = .call name (args.map core) none := by
  rw [core, ungrouped, bare, ungroupedAll_eq, bareAll_eq, List.map_map]
  rfl

theorem core_wrapped (needed : Bool) (n : Node) : (wrapped needed n).core = n.core := by
  cases needed <;> rfl

theorem core_normal_binary (op : Operator) (left right : Node) (span : Option Span) :
    (binary op left right span).normal.core =
      .binary op left.normal.core right.normal.core none := by
  rw [normal, core_binary, core_wrapped, core_wrapped]

theorem core_normal_call (name : Text) (args : List Node) (span : Option Span) :
    (call name args span).normal.core =
      .call name (args.map fun a => (asArgument a.normal).core) none := by
  rw [normal, core_call, normalArguments_eq, List.map_map]
  rfl

/-- How many values and calls an expression joins by operators. -/
def weight : Node → Nat
  | binary _ left right _ => left.weight + right.weight
  | parenthesized inner _ => inner.weight
  | _ => 1

theorem weight_pos : (n : Node) → 0 < n.weight
  | .binary _ left _ _ => Nat.add_pos_left (weight_pos left) _
  | .parenthesized inner _ => weight_pos inner
  | .plain _ | .identifier .. | .integer .. | .string .. | .tuple .. | .call .. | .assignment ..
  | .spec .. | .probe .. | .script .. => Nat.one_pos

theorem weight_core : (n : Node) → n.core.weight = n.weight
  | .binary _ left right _ => congrArg₂ _ (weight_core left) (weight_core right)
  | .parenthesized inner _ => weight_core inner
  | .plain _ | .identifier .. | .integer .. | .string .. | .tuple .. | .call .. | .assignment ..
  | .spec .. | .probe .. | .script .. => rfl

private theorem weight_wrapped (needed : Bool) (n : Node) :
    (wrapped needed n).weight = n.weight := by
  cases needed <;> rfl

theorem weight_normal : (n : Node) → n.normal.weight = n.weight
  | .binary _ left right _ => by
    rw [normal, weight, weight_wrapped, weight_wrapped, weight_normal left, weight_normal right,
      weight]
  | .parenthesized inner _ => weight_normal inner
  | .plain _ | .identifier .. | .integer .. | .string .. | .tuple .. | .call .. | .assignment ..
  | .spec .. | .probe .. | .script .. => rfl

/-- Reading an expression as an argument makes a tuple of it, which no expression is, or nothing. -/
theorem IsExpression.core_ne_tuple : {n : Node} → IsExpression n →
    ∀ values span, n.core ≠ .tuple values span
  | _, .value h, values, span => by cases h <;> exact nofun
  | _, .binary .., values, span => nofun
  | _, .parenthesized _ h, values, span => h.core_ne_tuple values span
  | _, .call .., values, span => nofun

end ProbeScript.Node
