import ProbeScript.Phrase.Partial

/-! Which terminals a phrase read in part can go on with, each with the rule that asks for it. A
terminal of a repetition belongs to no rule of its own. -/
namespace ProbeScript.Phrase

structure Item where
  terminal : Terminal
  rule : Option Rule
  deriving DecidableEq, Repr

namespace Item

def values : List Item :=
  [⟨.name, some .value⟩, ⟨.string, some .value⟩, ⟨.binary, some .integer⟩,
    ⟨.octal, some .integer⟩, ⟨.decimal, some .integer⟩, ⟨.hexadecimal, some .integer⟩]

def operands : List Item := ⟨.lpar, some .operand⟩ :: ⟨.name, some .call⟩ :: values

def operators : List Item :=
  [⟨.logical, none⟩, ⟨.relational, none⟩, ⟨.additive, none⟩, ⟨.multiplicative, none⟩]

end Item

/-- What may stand where an operand is due, apart from operands. -/
def Before.waiting : Before → List Item
  | .start (.argument call) =>
    ⟨.lpar, some .tuple⟩ :: if call.done.isNone then [⟨.rpar, some .call⟩] else []
  | .joined (.guard ..) _ ⟨.divide, _⟩ => [⟨.lbrace, some .body⟩]
  | _ => []

/-- What may end a chain. -/
def Hole.waiting : Hole → List Item
  | .alone => []
  | .guard .. => [⟨.slash, some .predicate⟩]
  | .assigned .. => [⟨.semicolon, some .statement⟩]
  | .group .. => [⟨.rpar, some .operand⟩]
  | .argument _ => [⟨.rpar, some .call⟩, ⟨.comma, none⟩]

/-- What makes more of the operand just read: a name may be called, and a value between
parentheses may be the first of a tuple. -/
def Operand.waiting (before : Before) : Operand → List Item
  | .value v =>
    (match v with
      | .name _ => [⟨.lpar, some .call⟩]
      | _ => []) ++
    match before with
    | .start (.group (.start (.argument _)) _) => [⟨.comma, none⟩]
    | _ => []
  | _ => []

def Partial.waiting : Partial → List Item
  | .probeDue _ => [⟨.probeSpec, some .probe⟩]
  | .afterSpec _ => [⟨.slash, some .predicate⟩, ⟨.lbrace, some .body⟩]
  | .statementDue body =>
    ⟨.name, some .assignment⟩ :: ⟨.name, some .call⟩ ::
      if body.done.isEmpty then [] else [⟨.rbrace, some .body⟩]
  | .afterStatementName .. => [⟨.equal, some .assignment⟩, ⟨.lpar, some .call⟩]
  | .afterStatementCall .. => [⟨.semicolon, some .statement⟩]
  | .operandDue before => before.waiting ++ Item.operands
  | .afterOperand before o => o.waiting before ++ before.hole.waiting ++ Item.operators
  | .valueDue .. => Item.values
  | .afterValue .. => [⟨.comma, none⟩, ⟨.rpar, some .tuple⟩]
  | .afterTuple .. => [⟨.comma, none⟩, ⟨.rpar, some .call⟩]

namespace Item

/-- The terminals of the items, each once, in the order of their titles. -/
def expected (items : List Item) : List Terminal :=
  Terminal.all.filter fun t => items.any (·.terminal == t)

/-- The rules of the items, each once, in the order of their titles. -/
def rules (items : List Item) : List Rule :=
  Rule.all.filter fun r => items.any (·.rule == some r)

end Item
end ProbeScript.Phrase
