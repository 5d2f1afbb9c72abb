import ProbeScript.Phrase.Basic

/-! Phrases read in part: what has been read, and the place in it where the next token goes.

Two tokens can be read in two ways until the one after them is known. A slash after the operands
of a predicate is taken for a division, and for the end of the predicate once a brace follows. A
parenthesis at the start of an argument is taken for a group, and for a tuple once a comma follows
a single value. -/
namespace ProbeScript.Phrase

/-- A probe whose event specification has been read, after others. -/
structure OpenProbe where
  before : List Probe
  spec : Lexeme

/-- A probe whose body is being read. -/
structure OpenBody where
  probe : OpenProbe
  guard : Option Guard
  lbrace : Lexeme
  done : List Statement

mutual

/-- What a chain of operands is being read for. -/
inductive Hole
  /-- The chain is all there is. -/
  | alone
  | guard (probe : OpenProbe) (opening : Lexeme)
  | assigned (body : OpenBody) (target equal : Lexeme)
  | group (before : Before) (lpar : Lexeme)
  | argument (call : OpenCall)

/-- What stands before an operand in its chain. -/
inductive Before
  | start (hole : Hole)
  | joined (hole : Hole) (init : Chain) (joint : Joint)

/-- A call whose arguments are being read. -/
inductive OpenCall
  | operand (before : Before) (name lpar : Lexeme) (done : Option (Args × Lexeme))
  | statement (body : OpenBody) (name lpar : Lexeme) (done : Option (Args × Lexeme))

end

/-- A phrase read in part. -/
inductive Partial
  /-- A probe may begin, after those already read. -/
  | probeDue (done : List Probe)
  | afterSpec (probe : OpenProbe)
  /-- A statement may begin, after those already read. -/
  | statementDue (body : OpenBody)
  | afterStatementName (body : OpenBody) (name : Lexeme)
  | afterStatementCall (body : OpenBody) (call : Call)
  | operandDue (before : Before)
  | afterOperand (before : Before) (operand : Operand)
  /-- A value of a tuple is due, after a comma. -/
  | valueDue (call : OpenCall) (lpar : Lexeme) (init : Values) (comma : Lexeme)
  | afterValue (call : OpenCall) (lpar : Lexeme) (init : Values) (comma : Lexeme) (last : Value)
  /-- An argument that is a tuple has been read. -/
  | afterTuple (call : OpenCall) (arg : Arg)

namespace OpenBody

def add (b : OpenBody) (s : Statement) : OpenBody := { b with done := b.done ++ [s] }

/-- The probes read once the body is closed; it must hold a statement. -/
def close? (b : OpenBody) (rbrace : Lexeme) : Option (List Probe) :=
  match b.done with
  | [] => none
  | first :: others =>
    some (b.probe.before ++ [⟨b.probe.spec, b.guard, b.lbrace, first, others, rbrace⟩])

end OpenBody

namespace Before

def hole : Before → Hole
  | start h => h
  | joined h _ _ => h

/-- The chain that ends with the operand. -/
def chain : Before → Operand → Chain
  | start _, o => .one o
  | joined _ init joint, o => .more init joint o

end Before

/-- The arguments with one more at the end. -/
def Args.extend (done : Option (Args × Lexeme)) (a : Arg) : Args :=
  match done with
  | none => .one a
  | some (init, comma) => .more init comma a

namespace OpenCall

def done : OpenCall → Option (Args × Lexeme)
  | operand _ _ _ done => done
  | statement _ _ _ done => done

/-- The call after one more argument and a comma. -/
def add (a : Arg) (comma : Lexeme) : OpenCall → OpenCall
  | operand before name lpar done => operand before name lpar (some (.extend done a, comma))
  | statement body name lpar done => statement body name lpar (some (.extend done a, comma))

/-- The call closed after its last argument. -/
def close (a : Arg) (rpar : Lexeme) : OpenCall → Partial
  | operand before name lpar done =>
    .afterOperand before (.call (.applied name lpar (.extend done a) rpar))
  | statement body name lpar done =>
    .afterStatementCall body (.applied name lpar (.extend done a) rpar)

/-- The call closed without arguments. -/
def closeBare? (rpar : Lexeme) : OpenCall → Option Partial
  | operand before name lpar none => some (.afterOperand before (.call (.bare name lpar rpar)))
  | statement body name lpar none => some (.afterStatementCall body (.bare name lpar rpar))
  | _ => none

end OpenCall

namespace Partial

/-- The phrase after a token where an operand is due. -/
def startOperand (before : Before) (t : Token) : Option Partial :=
  match t.terminal, before with
  | .lpar, _ => some (.operandDue (.start (.group before t.lexeme)))
  | .rpar, .start (.argument call) => call.closeBare? t.lexeme
  | .lbrace, .joined (.guard probe opening) predicate ⟨.divide, index⟩ =>
    let closing := ⟨index, Operator.divide.symbol⟩
    some (.statementDue ⟨probe, some ⟨opening, predicate, closing⟩, t.lexeme, []⟩)
  | _, _ => (Value.ofToken? t).map fun v => .afterOperand before (.value v)

/-- The phrase after an operator. -/
def join (hole : Hole) (chain : Chain) (t : Token) : Option Partial :=
  (Operator.ofSymbol? t.lexeme.text).map fun op =>
    .operandDue (.joined hole chain ⟨op, t.lexeme.start⟩)

/-- The phrase after a token that follows an operand. -/
def finishOperand (before : Before) (o : Operand) (t : Token) : Option Partial :=
  match t.terminal, before.hole with
  | .logical, hole | .relational, hole | .additive, hole | .multiplicative, hole
  | .slash, hole@(.guard ..) => join hole (before.chain o) t
  | .semicolon, .assigned body target equal =>
    some (.statementDue (body.add (.assignment target equal (before.chain o) t.lexeme)))
  | .rpar, .group outer lpar => some (.afterOperand outer (.group lpar (before.chain o) t.lexeme))
  | .rpar, .argument call => some (call.close (.chain (before.chain o)) t.lexeme)
  | .comma, .argument call =>
    some (.operandDue (.start (.argument (call.add (.chain (before.chain o)) t.lexeme))))
  | .comma, .group (.start (.argument call)) lpar =>
    match before.chain o with
    | .one (.value v) => some (.valueDue call lpar (.one v) t.lexeme)
    | _ => none
  | .lpar, _ =>
    match o with
    | .value (.name name) =>
      some (.operandDue (.start (.argument (.operand before name t.lexeme none))))
    | _ => none
  | _, _ => none

/-- The phrase after one more token, if the token can go there. -/
def advance : Partial → Token → Option Partial
  | probeDue done, ⟨.probeSpec, l⟩ => some (.afterSpec ⟨done, l⟩)
  | afterSpec probe, ⟨.slash, l⟩ => some (.operandDue (.start (.guard probe l)))
  | afterSpec probe, ⟨.lbrace, l⟩ => some (.statementDue ⟨probe, none, l, []⟩)
  | statementDue body, ⟨.name, l⟩ => some (.afterStatementName body l)
  | statementDue body, ⟨.rbrace, l⟩ => (body.close? l).map .probeDue
  | afterStatementName body name, ⟨.equal, l⟩ =>
    some (.operandDue (.start (.assigned body name l)))
  | afterStatementName body name, ⟨.lpar, l⟩ =>
    some (.operandDue (.start (.argument (.statement body name l none))))
  | afterStatementCall body call, ⟨.semicolon, l⟩ => some (.statementDue (body.add (.call call l)))
  | operandDue before, t => startOperand before t
  | afterOperand before o, t => finishOperand before o t
  | valueDue call lpar init comma, t => (Value.ofToken? t).map (.afterValue call lpar init comma)
  | afterValue call lpar init comma last, ⟨.comma, l⟩ =>
    some (.valueDue call lpar (.more init comma last) l)
  | afterValue call lpar init comma last, ⟨.rpar, l⟩ =>
    some (.afterTuple call (.tuple lpar init comma last l))
  | afterTuple call arg, ⟨.comma, l⟩ => some (.operandDue (.start (.argument (call.add arg l))))
  | afterTuple call arg, ⟨.rpar, l⟩ => some (call.close arg l)
  | _, _ => none

/-- The script read, if it may end here. -/
def script? : Partial → Option Script
  | probeDue (first :: others) => some ⟨first, others⟩
  | _ => none

/-- The expression read, if it may end here. -/
def expression? : Partial → Option Chain
  | afterOperand before o =>
    match before.hole with
    | .alone => some (before.chain o)
    | _ => none
  | _ => none

end Partial
end ProbeScript.Phrase
