import ProbeScript.Phrase.Basic
import ProbeScript.Tree.Grouping
import ProbeScript.ProbeSpec

/-! The tree of a phrase. Parts come before the whole and left before right; the first fault in
this order is the one reported. The event specification of a probe comes after the rest of it. -/
namespace ProbeScript.Phrase

/-- Why a phrase has no tree. -/
inductive TreeFault
  /-- A decimal literal has more digits than the limit. -/
  | digits (count : Nat)
  /-- The event specification at the index has too many parts. -/
  | malformedSpec (index : Nat) (spec : Text)
  deriving DecidableEq, Repr

abbrev Fallible := Except TreeFault

/-- From the start of one word to the end of another. -/
def Lexeme.through (source : Text) (first last : Lexeme) : Option Span :=
  some (.between source first.start last.stop)

def Lexeme.span (source : Text) (l : Lexeme) : Option Span := l.through source l

/-- The last word of an operand. -/
def Operand.final : Operand → Lexeme
  | .value v => v.token.lexeme
  | .group _ _ rpar => rpar
  | .call (.bare _ _ rpar) | .call (.applied _ _ _ rpar) => rpar

def Chain.final : Chain → Lexeme
  | .one o | .more _ _ o => o.final

def Value.tree (source : Text) : Value → Fallible Node
  | .name word => .ok (.identifier word.text (word.span source))
  | .string word => .ok (.string ((word.text.drop 1).dropLast) (word.span source))
  | .integer radix word =>
    match radix.read (word.text.drop radix.marker.length) with
    | .error count => .error (.digits count)
    | .ok n => .ok (.integer n radix.base (word.span source))

def Values.tree (source : Text) : Values → Fallible (List Node)
  | .one v => return [← v.tree source]
  | .more init _ last => do
    let ns ← init.tree source
    return ns ++ [← last.tree source]

/-- A single value between parentheses is a tuple where an argument is wanted. -/
def asArgument : Node → Node
  | .parenthesized inner span =>
    match inner.kind with
    | .identifier | .integer | .string => .tuple [inner] span
    | _ => .parenthesized inner span
  | n => n

mutual

def Operand.tree (source : Text) : Operand → Fallible Node
  | .value v => v.tree source
  | .group lpar inner rpar =>
    return .parenthesized (← inner.grouping source).node (lpar.through source rpar)
  | .call c => c.tree source

def Chain.grouping (source : Text) : Chain → Fallible (Grouping Node)
  | .one o => return .operand (← o.tree source)
  | .more init joint last => do
    let g ← init.grouping source
    return g.attach joint.op (← last.tree source)

def Call.tree (source : Text) : Call → Fallible Node
  | .bare name _ rpar => .ok (.call name.text [] (name.through source rpar))
  | .applied name _ args rpar =>
    return .call name.text (← args.tree source) (name.through source rpar)

def Args.tree (source : Text) : Args → Fallible (List Node)
  | .one a => return [← a.tree source]
  | .more init _ last => do
    let ns ← init.tree source
    return ns ++ [← last.tree source]

def Arg.tree (source : Text) : Arg → Fallible Node
  | .chain c => return asArgument (← c.grouping source).node
  | .tuple lpar init _ last rpar => do
    let ns ← init.tree source
    return .tuple (ns ++ [← last.tree source]) (lpar.through source rpar)

end

def Chain.tree (source : Text) (c : Chain) : Fallible Node := return (← c.grouping source).node

def Statement.tree (source : Text) : Statement → Fallible Node
  | .assignment target _ value _ =>
    return .assignment (.identifier target.text (target.span source)) (← value.tree source)
      (target.through source value.final)
  | .call c _ => c.tree source

def specNode (source : Text) (spec : Lexeme) : Fallible Node :=
  match ProbeSpec.split? spec.text with
  | none => .error (.malformedSpec spec.start spec.text)
  | some parts => .ok (.spec parts (spec.span source))

def Probe.tree (source : Text) (p : Probe) : Fallible Node := do
  let predicate ← p.guard.mapM (·.predicate.tree source)
  let body ← p.statements.mapM (Statement.tree source)
  return .probe (← specNode source p.spec) predicate body (p.spec.through source p.rbrace)

def Script.tree (source : Text) (s : Script) : Fallible Node :=
  return .script (← s.probes.mapM (Probe.tree source))
    (s.first.spec.through source (s.others.getLastD s.first).rbrace)

end ProbeScript.Phrase
