import Mathlib.Algebra.Group.Nat.Defs
import ProbeScript.Proofs.Phrase.Word
import ProbeScript.Proofs.Tree.Parts
import ProbeScript.Tree.Source
import ProbeScript.Tree.Same

/-! The trees that have a text, by what they stand for, and the tree that the text of one is read
into: parentheses are made explicit, and a single value between them is a tuple where an argument is
wanted. -/
namespace ProbeScript

namespace Node

open Phrase (Terminal asArgument)

inductive IsValue : Node → Prop
  | identifier {name : Text} (span : Option Span) : Terminal.name.Spells name →
    IsValue (.identifier name span)
  /-- A decimal literal keeps within the limit. -/
  | integer (r : Radix) {n : Nat} (span : Option Span) :
    (r = .decimal → n < 10 ^ Radix.digitLimit) → IsValue (.integer n r.base span)
  | string {t : Text} (span : Option Span) : '"' ∉ t → IsValue (.string t span)

mutual

inductive IsExpression : Node → Prop
  | value {n : Node} : IsValue n → IsExpression n
  | binary (op : Operator) {left right : Node} (span : Option Span) :
    IsExpression left → IsExpression right → IsExpression (.binary op left right span)
  | parenthesized {inner : Node} (span : Option Span) :
    IsExpression inner → IsExpression (.parenthesized inner span)
  | call {name : Text} {args : List Node} (span : Option Span) :
    Terminal.name.Spells name → (∀ a ∈ args, IsArgument a) → IsExpression (.call name args span)

inductive IsArgument : Node → Prop
  | expression {n : Node} : IsExpression n → IsArgument n
  | tuple {values : List Node} (span : Option Span) :
    values ≠ [] → (∀ v ∈ values, IsValue v) → IsArgument (.tuple values span)

end

inductive IsStatement : Node → Prop
  | assignment {name : Text} {value : Node} (span span' : Option Span) :
    Terminal.name.Spells name → IsExpression value →
      IsStatement (.assignment (.identifier name span) value span')
  | call {name : Text} {args : List Node} (span : Option Span) :
    Terminal.name.Spells name → (∀ a ∈ args, IsArgument a) → IsStatement (.call name args span)

/-- A part of an event specification is missing or a run of the right characters. -/
def IsPart (part : Option Text) : Prop :=
  ∀ t ∈ part, t ≠ [] ∧ ∀ c ∈ t, Phrase.isSpecChar c = true

/-- One part at least is there, if it is the only one. -/
structure IsSpec (parts : List (Option Text)) : Prop where
  ne_nil : parts ≠ []
  length_le : parts.length ≤ 4
  isPart : ∀ part ∈ parts, IsPart part
  ne_none : parts ≠ [none]

inductive IsProbe : Node → Prop
  | intro {parts : List (Option Text)} {predicate : Option Node} {body : List Node}
    (span span' : Option Span) : IsSpec parts → (∀ p ∈ predicate, IsExpression p) → body ≠ [] →
      (∀ s ∈ body, IsStatement s) → IsProbe (.probe (.spec parts span) predicate body span')

inductive IsScript : Node → Prop
  | intro {probes : List Node} (span : Option Span) : probes ≠ [] → (∀ p ∈ probes, IsProbe p) →
    IsScript (.script probes span)

/-- The node between parentheses, if these are needed. -/
def wrapped (needed : Bool) (n : Node) : Node := if needed then .parenthesized n none else n

mutual

/-- The tree that the text of a tree is read into, apart from the stretches of text. -/
def normal : Node → Node
  | binary op left right span =>
    .binary op (wrapped (breaksLeft op left) left.normal)
      (wrapped (breaksRight op right) right.normal) span
  | parenthesized inner span => .parenthesized inner.normal span
  | call name args span => .call name (normalArguments args) span
  | assignment target value span => .assignment target value.normal span
  | probe event predicate body span => .probe event (normalSome predicate) (normalAll body) span
  | script probes span => .script (normalAll probes) span
  | plain span => .plain span
  | identifier name span => .identifier name span
  | integer value base span => .integer value base span
  | string value span => .string value span
  | tuple values span => .tuple values span
  | spec parts span => .spec parts span

def normalArguments : List Node → List Node
  | [] => []
  | a :: as => asArgument a.normal :: normalArguments as

def normalAll : List Node → List Node
  | [] => []
  | n :: ns => n.normal :: normalAll ns

def normalSome : Option Node → Option Node
  | none => none
  | some n => some n.normal

end

theorem normalArguments_eq (as : List Node) :
    normalArguments as = as.map fun a => asArgument a.normal := by
  induction as with
  | nil => rfl
  | cons a as ih => rw [normalArguments, ih, List.map_cons]

theorem normalAll_eq (ns : List Node) : normalAll ns = ns.map normal := by
  induction ns with
  | nil => rfl
  | cons n ns ih => rw [normalAll, ih, List.map_cons]

theorem bareAll_eq (ns : List Node) : bareAll ns = ns.map bare := by
  induction ns with
  | nil => rfl
  | cons n ns ih => rw [bareAll, ih, List.map_cons]

theorem bareAll_append (ns ms : List Node) : bareAll (ns ++ ms) = bareAll ns ++ bareAll ms := by
  rw [bareAll_eq, bareAll_eq, bareAll_eq, List.map_append]

/-! How tightly a node holds together: as its operator, or more than any operator. -/

def tier (n : Node) : Nat := n.operator?.elim 5 Operator.tier

theorem breaksLeft_eq (op : Operator) (n : Node) : breaksLeft op n = decide (n.tier < op.tier) := by
  have hop := op.tier_lt
  cases h : n.operator? with
  | none => simp [breaksLeft, tier, h]; omega
  | some o => simp [breaksLeft, tier, h]

theorem breaksRight_eq (op : Operator) (n : Node) :
    breaksRight op n = decide (n.tier ≤ op.tier) := by
  have hop := op.tier_lt
  cases h : n.operator? with
  | none => simp [breaksRight, tier, h]; omega
  | some o => simp [breaksRight, tier, h]

@[simp] theorem tier_normal (n : Node) : n.normal.tier = n.tier := by
  cases n <;> simp [normal, tier, operator?]

/-- The operands of an operator are put between parentheses where it would break them up. -/
theorem tier_wrapped_breaksLeft (op : Operator) (n : Node) :
    op.tier ≤ (wrapped (breaksLeft op n) n.normal).tier := by
  have hop := op.tier_lt
  rw [breaksLeft_eq]
  by_cases h : n.tier < op.tier
  · rw [decide_eq_true h]
    exact Nat.le_of_lt hop
  · rw [decide_eq_false h, wrapped, if_neg Bool.false_ne_true, tier_normal]
    exact Nat.not_lt.1 h

theorem tier_wrapped_breaksRight (op : Operator) (n : Node) :
    op.tier < (wrapped (breaksRight op n) n.normal).tier := by
  have hop := op.tier_lt
  rw [breaksRight_eq]
  by_cases h : n.tier ≤ op.tier
  · rw [decide_eq_true h]
    exact hop
  · rw [decide_eq_false h, wrapped, if_neg Bool.false_ne_true, tier_normal]
    exact Nat.not_le.1 h

theorem bare_asArgument (n : Node) : (asArgument n).bare = asArgument n.bare := by
  cases n with
  | parenthesized inner span => cases inner <;> simp [asArgument, bare, bareAll, kind]
  | _ => rfl

theorem IsValue.normal_eq {n : Node} (h : IsValue n) : n.normal = n := by cases h <;> rfl

theorem IsValue.tier_eq {n : Node} (h : IsValue n) : n.tier = 5 := by cases h <;> rfl

end Node
end ProbeScript
