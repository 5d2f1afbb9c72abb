import ProbeScript.Operator
import ProbeScript.Text.Position

/-! Trees of scripts and expressions. Any node may carry the stretch of text it was read from;
two trees are the same when they differ in these stretches alone. A tree built by hand may have
nodes of any kind as children. -/
namespace ProbeScript

inductive Node
  /-- A node of no particular kind. -/
  | plain (span : Option Span)
  | identifier (name : Text) (span : Option Span)
  /-- An integer with the base it is written in. -/
  | integer (value base : Int) (span : Option Span)
  /-- The text between the quotation marks, as it stands. -/
  | string (value : Text) (span : Option Span)
  | binary (op : Operator) (left right : Node) (span : Option Span)
  | parenthesized (inner : Node) (span : Option Span)
  | tuple (values : List Node) (span : Option Span)
  | call (name : Text) (args : List Node) (span : Option Span)
  | assignment (target value : Node) (span : Option Span)
  /-- The parts of an event specification; a part left empty is missing. -/
  | spec (parts : List (Option Text)) (span : Option Span)
  /-- A probe without a predicate always fires. -/
  | probe (spec : Node) (predicate : Option Node) (body : List Node) (span : Option Span)
  | script (probes : List Node) (span : Option Span)
  deriving Repr

/-- The kinds of node. -/
inductive NodeKind
  | plain | identifier | integer | string | binary | parenthesized | tuple | call | assignment
  | spec | probe | script
  deriving DecidableEq, Repr

def NodeKind.title : NodeKind → Text
  | plain => "Node".toList
  | identifier => "Identifier".toList
  | integer => "IntegerLiteral".toList
  | string => "StringLiteral".toList
  | binary => "BinaryOp".toList
  | parenthesized => "Parenthesized".toList
  | tuple => "Tuple".toList
  | call => "FunctionCall".toList
  | assignment => "Assignment".toList
  | spec => "ProbeSpec".toList
  | probe => "ProbeDef".toList
  | script => "Script".toList

namespace Node

def kind : Node → NodeKind
  | plain _ => .plain
  | identifier .. => .identifier
  | integer .. => .integer
  | string .. => .string
  | binary .. => .binary
  | parenthesized .. => .parenthesized
  | tuple .. => .tuple
  | call .. => .call
  | assignment .. => .assignment
  | spec .. => .spec
  | probe .. => .probe
  | script .. => .script

def span : Node → Option Span
  | plain s | identifier _ s | integer _ _ s | string _ s | binary _ _ _ s | parenthesized _ s
  | tuple _ s | call _ _ s | assignment _ _ s | spec _ s | probe _ _ _ s | script _ s => s

/-- The nodes directly below, from left to right. -/
def children : Node → List Node
  | binary _ left right _ => [left, right]
  | parenthesized inner _ => [inner]
  | tuple values _ => values
  | call _ args _ => args
  | assignment target value _ => [target, value]
  | probe event predicate body _ => event :: predicate.toList ++ body
  | script probes _ => probes
  | _ => []

theorem sizeOf_lt_of_mem_children {n c : Node} (h : c ∈ n.children) : sizeOf c < sizeOf n := by
  cases n with
  | probe event predicate body =>
    rcases List.mem_append.1 h with h | h
    · rcases List.mem_cons.1 h with rfl | h
      · simp; omega
      · rw [Option.mem_toList.1 h]; simp; omega
    · have := List.sizeOf_lt_of_mem h; simp; omega
  | tuple values | call _ values | script values =>
    have := List.sizeOf_lt_of_mem (show c ∈ values from h)
    simp; omega
  | binary | assignment =>
    simp only [children, List.mem_cons, List.not_mem_nil, or_false] at h
    rcases h with rfl | rfl <;> simp <;> omega
  | parenthesized => simp_all [children]; omega
  | _ => simp [children] at h

end Node
end ProbeScript
