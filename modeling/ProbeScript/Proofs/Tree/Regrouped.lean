import ProbeScript.Proofs.Tree.Flat
import ProbeScript.Proofs.Tree.SourceText
import ProbeScript.Proofs.Tree.Ungrouped

/-! Rows of operands that stand for parts of a tree. As a text they are grouped by tiers, whatever
the tree was; the groups are those of the tree only if the tree is ordered by tiers, and each
operand is read as the part that it stands for. -/
namespace ProbeScript

open Node

/-- An operand in a text and the part of a tree that it stands for. -/
structure Slot where
  shown : Node
  meant : Node
  text : Text
  isExpression : shown.IsExpression
  tier_eq : shown.tier = 5
  source_eq : shown.source = .ok text
  weight_eq : shown.weight = meant.weight

/-- The operand is read as the part that it stands for, but for parentheses. -/
def Slot.Faithful (s : Slot) : Prop := s.shown.normal.core = s.meant.core

namespace Grouping

variable {g g' : Grouping Slot} {op : Operator} {left right : Grouping Slot} {s : Slot}

/-- The tree of the operands in the text. -/
def shown : Grouping Slot → Node
  | operand s => s.shown
  | joined op left right => .binary op left.shown right.shown none

/-- The tree of the parts that the operands stand for. -/
def meant : Grouping Slot → Node
  | operand s => s.meant
  | joined op left right => .binary op left.meant right.meant none

/-- The text of the row. -/
def line : Grouping Slot → Text
  | operand s => s.text
  | joined op left right => left.line ++ ' ' :: op.symbol ++ ' ' :: right.line

/-- How many values and calls the operands of a row join. -/
def weight : List (Operator × Slot) → Nat
  | [] => 0
  | x :: row => x.2.meant.weight + weight row

private theorem weight_append (row more : List (Operator × Slot)) :
    weight (row ++ more) = weight row + weight more := by
  induction row with
  | nil => exact (Nat.zero_add _).symm
  | cons x row ih => rw [List.cons_append, weight, weight, ih, Nat.add_assoc]

private theorem weight_eq_zero {row : List (Operator × Slot)} (h : weight row = 0) : row = [] := by
  cases row with
  | nil => rfl
  | cons x row =>
    have hpos := x.2.meant.weight_pos
    rw [weight] at h
    omega

private theorem line_eq (g : Grouping Slot) :
    g.line = g.first.text ++ g.rest.flatMap fun x => ' ' :: x.1.symbol ++ ' ' :: x.2.text := by
  induction g with
  | operand => simp [line, first, rest]
  | joined op left right ihleft ihright => simp [line, first, rest, ihleft, ihright]

private theorem weight_meant (g : Grouping Slot) :
    g.meant.weight = g.first.meant.weight + weight g.rest := by
  induction g with
  | operand => rfl
  | joined op left right ihleft ihright =>
    have h : (joined op left right).meant.weight = left.meant.weight + right.meant.weight := rfl
    have hright : weight ((op, right.first) :: right.rest) =
        right.first.meant.weight + weight right.rest := rfl
    rw [h, ihleft, ihright, first, rest, weight_append, hright, Nat.add_assoc]

private theorem weight_shown (g : Grouping Slot) :
    g.shown.weight = g.first.meant.weight + weight g.rest := by
  rw [← weight_meant]
  induction g with
  | operand s => exact s.weight_eq
  | joined op left right ihleft ihright => exact congrArg₂ _ ihleft ihright

/-- Where tiers order the operators no parentheses are written. -/
private theorem Ordered.shown (h : g.Ordered fun _ => True) :
    g.shown.IsExpression ∧ g.shown.tier = g.tier ∧ g.shown.source = .ok g.line := by
  induction h with
  | @operand s => exact ⟨s.isExpression, s.tier_eq, s.source_eq⟩
  | @joined op left right _ _ hle hlt ihleft ihright =>
    obtain ⟨hleft, htier, hl⟩ := ihleft
    obtain ⟨hright, htier', hr⟩ := ihright
    refine ⟨.binary op none hleft hright, rfl, source_binary_iff.2 ⟨_, _, hl, hr, ?_⟩⟩
    rw [breaksLeft_eq, breaksRight_eq, htier, htier', decide_eq_false (Nat.not_lt.2 hle),
      decide_eq_false (Nat.not_le.2 hlt)]
    rfl

/-- Of two beginnings of one row that join as much neither is longer. -/
private theorem eq_of_weight_eq {row row' more more' : List (Operator × Slot)}
    (h : row ++ more = row' ++ more') (hweight : weight row = weight row') :
    row = row' ∧ more = more' := by
  rcases List.append_eq_append_iff.1 h with ⟨x, rfl, rfl⟩ | ⟨x, rfl, rfl⟩
  all_goals
    rw [weight_append] at hweight
    obtain rfl : x = [] := weight_eq_zero (by omega)
    simp

/-- The tree is ordered by tiers if it is the one that the row is read into. -/
private theorem Ordered.of_core_eq (h : g.Ordered fun _ => True) (hfirst : g.first = g'.first)
    (hrest : g.rest = g'.rest) (hcore : g.shown.normal.core = g'.meant.core) :
    g'.Ordered Slot.Faithful ∧ g'.tier = g.tier := by
  induction h generalizing g' with
  | @operand s =>
    cases g' with
    | operand s' =>
      obtain rfl : s = s' := hfirst
      exact ⟨.operand hcore, rfl⟩
    | joined => simp [rest] at hrest
  | @joined op left right _ _ hle hlt ihleft ihright =>
    cases g' with
    | operand => simp [rest] at hrest
    | joined op' left' right' =>
      rw [Grouping.shown, core_normal_binary, meant, core_binary] at hcore
      obtain ⟨rfl, hcoreleft, hcoreright, -⟩ := Node.binary.inj hcore
      replace hfirst : left.first = left'.first := hfirst
      have hweight : weight left.rest = weight left'.rest := by
        have hshown := left.weight_shown
        rw [← weight_normal, ← weight_core, hcoreleft, weight_core, weight_meant, hfirst] at hshown
        exact (Nat.add_left_cancel hshown).symm
      obtain ⟨hrestleft, hmore⟩ := eq_of_weight_eq hrest hweight
      obtain ⟨hop, hrestright⟩ := List.cons.inj hmore
      obtain ⟨hleft, htier⟩ := ihleft hfirst hrestleft hcoreleft
      obtain ⟨hright, htier'⟩ := ihright (congrArg Prod.snd hop) hrestright hcoreright
      exact ⟨.joined hleft hright (htier ▸ hle) (htier' ▸ hlt), rfl⟩

/-- A row is read into the tree that it stands for only if this is ordered by tiers. -/
theorem exists_regrouped (g : Grouping Slot) (h : ¬ g.Ordered Slot.Faithful) :
    ∃ n : Node, n.IsExpression ∧ n.source = .ok g.line ∧ n.weight = g.meant.weight ∧
      n.normal.core ≠ g.meant.core := by
  have hordered : (ofList g.first g.rest).Ordered fun _ => True :=
    .ofList trivial fun _ _ => trivial
  have hfirst := first_ofList g.first g.rest
  have hrest := rest_ofList g.first g.rest
  obtain ⟨hexpression, -, hsource⟩ := hordered.shown
  refine ⟨(ofList g.first g.rest).shown, hexpression, ?_, ?_, fun hcore => h ?_⟩
  · rw [hsource, line_eq, hfirst, hrest, ← line_eq]
  · rw [weight_shown, hfirst, hrest, weight_meant]
  · exact (hordered.of_core_eq hfirst hrest hcore).1

end Grouping
end ProbeScript
