import ProbeScript.Phrase.Terminal

/-! Phrases: the shapes of the grammar with a word of the text at each leaf. The tokens of a
phrase are its words from left to right, so a text has a derivation when some phrase has tokens
that cover it. Lists grow at their right end, the way they are read. -/
namespace ProbeScript.Phrase

/-- A word and the index at which it starts. -/
structure Lexeme where
  start : Nat
  text : Text
  deriving DecidableEq, Repr

/-- The index just past the word. -/
def Lexeme.stop (l : Lexeme) : Nat := l.start + l.text.length

structure Token where
  terminal : Terminal
  lexeme : Lexeme
  deriving DecidableEq, Repr

/-- An operator between two operands, at an index. -/
structure Joint where
  op : Operator
  start : Nat
  deriving DecidableEq, Repr

inductive Value
  | name (word : Lexeme)
  | string (word : Lexeme)
  | integer (radix : Radix) (word : Lexeme)
  deriving DecidableEq, Repr

inductive Values
  | one (value : Value)
  | more (init : Values) (comma : Lexeme) (last : Value)
  deriving DecidableEq, Repr

mutual

inductive Operand
  | value (value : Value)
  | group (lpar : Lexeme) (inner : Chain) (rpar : Lexeme)
  | call (call : Call)

/-- Operands joined by operators, without regard to how tightly these bind. -/
inductive Chain
  | one (operand : Operand)
  | more (init : Chain) (joint : Joint) (last : Operand)

inductive Call
  | bare (name lpar rpar : Lexeme)
  | applied (name lpar : Lexeme) (args : Args) (rpar : Lexeme)

inductive Args
  | one (arg : Arg)
  | more (init : Args) (comma : Lexeme) (last : Arg)

/-- A tuple holds two values at least. A single value between parentheses is a chain. -/
inductive Arg
  | chain (chain : Chain)
  | tuple (lpar : Lexeme) (init : Values) (comma : Lexeme) (last : Value) (rpar : Lexeme)

end

inductive Statement
  | assignment (target equal : Lexeme) (value : Chain) (semicolon : Lexeme)
  | call (call : Call) (semicolon : Lexeme)

/-- A predicate between its slashes. -/
structure Guard where
  opening : Lexeme
  predicate : Chain
  closing : Lexeme

/-- The statements of a probe are its first one and the others. -/
structure Probe where
  spec : Lexeme
  guard : Option Guard
  lbrace : Lexeme
  first : Statement
  others : List Statement
  rbrace : Lexeme

/-- The probes of a script are its first one and the others. -/
structure Script where
  first : Probe
  others : List Probe

/-! The tokens of each kind of phrase. -/

def Joint.token (j : Joint) : Token := ⟨.ofOperator j.op, j.start, j.op.symbol⟩

def Value.token : Value → Token
  | .name word => ⟨.name, word⟩
  | .string word => ⟨.string, word⟩
  | .integer radix word => ⟨.ofRadix radix, word⟩

/-- The value that a token is, if it is one. -/
def Value.ofToken? (t : Token) : Option Value :=
  match t.terminal with
  | .name => some (.name t.lexeme)
  | .string => some (.string t.lexeme)
  | .binary => some (.integer .binary t.lexeme)
  | .octal => some (.integer .octal t.lexeme)
  | .decimal => some (.integer .decimal t.lexeme)
  | .hexadecimal => some (.integer .hexadecimal t.lexeme)
  | _ => none

theorem Value.ofToken?_token (v : Value) : Value.ofToken? v.token = some v := by
  cases v with
  | integer radix word => cases radix <;> rfl
  | name word | string word => rfl

def Values.tokens : Values → List Token
  | .one v => [v.token]
  | .more init comma last => init.tokens ++ [⟨.comma, comma⟩, last.token]

mutual

def Operand.tokens : Operand → List Token
  | .value v => [v.token]
  | .group lpar inner rpar => ⟨.lpar, lpar⟩ :: inner.tokens ++ [⟨.rpar, rpar⟩]
  | .call c => c.tokens

def Chain.tokens : Chain → List Token
  | .one o => o.tokens
  | .more init joint last => init.tokens ++ joint.token :: last.tokens

def Call.tokens : Call → List Token
  | .bare name lpar rpar => [⟨.name, name⟩, ⟨.lpar, lpar⟩, ⟨.rpar, rpar⟩]
  | .applied name lpar args rpar =>
    ⟨.name, name⟩ :: ⟨.lpar, lpar⟩ :: args.tokens ++ [⟨.rpar, rpar⟩]

def Args.tokens : Args → List Token
  | .one a => a.tokens
  | .more init comma last => init.tokens ++ ⟨.comma, comma⟩ :: last.tokens

def Arg.tokens : Arg → List Token
  | .chain c => c.tokens
  | .tuple lpar init comma last rpar =>
    ⟨.lpar, lpar⟩ :: init.tokens ++ [⟨.comma, comma⟩, last.token, ⟨.rpar, rpar⟩]

end

def Statement.tokens : Statement → List Token
  | .assignment target equal value semicolon =>
    ⟨.name, target⟩ :: ⟨.equal, equal⟩ :: value.tokens ++ [⟨.semicolon, semicolon⟩]
  | .call c semicolon => c.tokens ++ [⟨.semicolon, semicolon⟩]

def Guard.tokens (g : Guard) : List Token :=
  ⟨.slash, g.opening⟩ :: g.predicate.tokens ++ [⟨.slash, g.closing⟩]

def Probe.statements (p : Probe) : List Statement := p.first :: p.others

def Probe.tokens (p : Probe) : List Token :=
  ⟨.probeSpec, p.spec⟩ :: p.guard.elim [] Guard.tokens ++ ⟨.lbrace, p.lbrace⟩ ::
    p.statements.flatMap Statement.tokens ++ [⟨.rbrace, p.rbrace⟩]

def Script.probes (s : Script) : List Probe := s.first :: s.others

def Script.tokens (s : Script) : List Token := s.probes.flatMap Probe.tokens

end ProbeScript.Phrase
