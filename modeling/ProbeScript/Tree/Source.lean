import ProbeScript.Tree.Node
import ProbeScript.Text.Numeral

/-! Trees written as source text. Parentheses are added only where an operator would otherwise
group its operands in another way. -/
namespace ProbeScript

/-- Why a tree has no text. -/
inductive PrintError
  /-- A node of no particular kind has no form in the source. -/
  | formless
  /-- The target of an assignment has no name. -/
  | nameless
  /-- An integer is too large to be written in decimal. -/
  | tooLarge
  deriving DecidableEq, Repr

def PrintError.message : PrintError → Text
  | formless => "Cannot format node of type ".toList ++ NodeKind.plain.title
  | nameless => "The target of an assignment has no name".toList
  | tooLarge => Numeral.tooLarge

namespace Numeral

/-- The radix that a literal of the base is written in. Bases without a marker are written in
decimal. -/
def radixOf (base : Int) : Radix :=
  if base = 16 then .hexadecimal else if base = 8 then .octal else if base = 2 then .binary
  else .decimal

def literal (value base : Int) : Except PrintError Text :=
  match radixOf base with
  | .decimal => (decimal? value).elim (.error .tooLarge) .ok
  | r => .ok (signed r value)

end Numeral

namespace Node

def name? : Node → Option Text
  | identifier name _ | call name _ _ => some name
  | _ => none

/-- The event specification as it was written. -/
def specText (parts : List (Option Text)) : Text :=
  List.intercalate [':'] (parts.map (·.getD []))

/-- The operator of a node that joins two operands. -/
def operator? : Node → Option Operator
  | binary op .. => some op
  | _ => none

/-- Whether the operator would draw operands out of the node on its left. -/
def breaksLeft (op : Operator) (left : Node) : Bool := left.operator?.any (·.tier < op.tier)

/-- Whether the operator would draw operands out of the node on its right. -/
def breaksRight (op : Operator) (right : Node) : Bool := right.operator?.any (·.tier ≤ op.tier)

def parenthesesIf (needed : Bool) (t : Text) : Text := if needed then '(' :: t ++ [')'] else t

/-- A list between parentheses. -/
def listText (items : List Text) : Text := '(' :: List.intercalate ", ".toList items ++ [')']

/-- A probe on lines of its own, the last one ended. -/
def probeText (event : Text) (predicate : Option Text) (body : List Text) : Text :=
  event ++ predicate.elim [] (fun p => " / ".toList ++ p ++ " /".toList) ++ " \x7b\n".toList ++
    body.flatMap (fun s => "    ".toList ++ s ++ ";\n".toList) ++ "\x7d\n".toList

mutual

def source : Node → Except PrintError Text
  | plain _ => .error .formless
  | identifier name _ => .ok name
  | integer value base _ => Numeral.literal value base
  | string value _ => .ok ('"' :: value ++ ['"'])
  | binary op left right _ => do
    let l ← left.source
    let r ← right.source
    return parenthesesIf (breaksLeft op left) l ++ ' ' :: op.symbol ++ ' ' ::
      parenthesesIf (breaksRight op right) r
  | parenthesized inner _ => return parenthesesIf true (← inner.source)
  | tuple values _ => return listText (← sources values)
  | call name args _ => return name ++ listText (← sources args)
  | assignment target value _ => do
    let some name := target.name? | .error .nameless
    return name ++ " = ".toList ++ (← value.source)
  | spec parts _ => .ok (specText parts)
  | probe event predicate body _ => do
    let e ← event.source
    let p ← sourceSome predicate
    let b ← sources body
    return probeText e p b
  | script probes _ => return List.intercalate ['\n'] (← sources probes)

def sources : List Node → Except PrintError (List Text)
  | [] => .ok []
  | n :: ns => do
    let t ← n.source
    let ts ← sources ns
    return t :: ts

def sourceSome : Option Node → Except PrintError (Option Text)
  | none => .ok none
  | some n => return some (← n.source)

end

end Node
end ProbeScript
