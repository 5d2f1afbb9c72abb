import ProbeScript.Tree.Node
import ProbeScript.Text.Quoted

/-! Building trees by hand: what a tuple, an event specification, a probe and an operator must be
made of. -/
namespace ProbeScript

inductive ShapeError
  | unknownOperator (symbol : Text)
  | emptyTuple
  | partCount (count : Nat)
  | emptyBody
  deriving DecidableEq, Repr

def ShapeError.message : ShapeError → Text
  | unknownOperator symbol => Text.quoted symbol ++ " is not a valid BinaryOperator".toList
  | emptyTuple => "Tuples must contain at least one value".toList
  | partCount count =>
    "Probe specs have between 1 and 4 parts, not ".toList ++ Numeral.decimal count
  | emptyBody => "Probe bodies must contain at least one statement".toList

def Operator.checked (symbol : Text) : Except ShapeError Operator :=
  match ofSymbol? symbol with
  | some op => .ok op
  | none => .error (.unknownOperator symbol)

namespace Node

def checkedTuple (values : List Node) (span : Option Span) : Except ShapeError Node :=
  if values.isEmpty then .error .emptyTuple else .ok (.tuple values span)

def checkedSpec (parts : List (Option Text)) (span : Option Span) : Except ShapeError Node :=
  if 1 ≤ parts.length ∧ parts.length ≤ 4 then .ok (.spec parts span)
  else .error (.partCount parts.length)

def checkedProbe (event : Node) (predicate : Option Node) (body : List Node)
    (span : Option Span) : Except ShapeError Node :=
  if body.isEmpty then .error .emptyBody else .ok (.probe event predicate body span)

end Node
end ProbeScript
