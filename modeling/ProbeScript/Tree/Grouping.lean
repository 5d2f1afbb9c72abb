import ProbeScript.Tree.Node

/-! Operands joined by operators, grouped by how tightly the operators bind. Operators of one tier
group to the left. -/
namespace ProbeScript

inductive Grouping (α : Type)
  | operand (a : α)
  | joined (op : Operator) (left right : Grouping α)
  deriving DecidableEq, Repr

namespace Grouping
variable {α : Type}

/-- The grouping with one more operand at its right end. The operator takes the tightest part
there that it does not bind more tightly than. -/
def attach (op : Operator) (a : α) : Grouping α → Grouping α
  | operand b => joined op (operand b) (operand a)
  | joined o left right =>
    if o.tier < op.tier then joined o left (right.attach op a)
    else joined op (joined o left right) (operand a)

/-- The grouping of a first operand and further ones, each after its operator. -/
def ofList (first : α) (rest : List (Operator × α)) : Grouping α :=
  rest.foldl (fun g (op, a) => g.attach op a) (operand first)

/-- The tree of a grouping. A node that joins two others covers both. -/
def node : Grouping Node → Node
  | operand n => n
  | joined op left right =>
    .binary op left.node right.node (Span.join left.node.span right.node.span)

end Grouping

/-- The tree of a row of operands with operators between them, if there is one operand more than
there are operators. -/
def Node.grouped? (operands : List Node) (operators : List Operator) : Option Node :=
  match operands with
  | [] => none
  | first :: rest =>
    if rest.length = operators.length then some (Grouping.ofList first (operators.zip rest)).node
    else none

end ProbeScript
