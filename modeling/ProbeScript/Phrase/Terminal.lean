import ProbeScript.Operator
import ProbeScript.Text.Numeral

/-! The terminals of the grammar, and the word that each of them takes from the head of a text:
the longest that belongs to it; and the rules that messages name. -/
namespace ProbeScript.Phrase

/-- In the order of their titles. -/
inductive Terminal
  | binary | comma | decimal | equal | hexadecimal | name | lbrace | logical | lpar
  | multiplicative | octal | probeSpec | rbrace | relational | rpar | semicolon | slash | string
  | additive
  deriving DecidableEq, Repr

/-- A part of an event specification is made of these. -/
def isSpecChar (c : Char) : Bool := c.isAlphanum || "_*+\\?![]".toList.contains c

def isNameStart (c : Char) : Bool := c.isAlpha || c == '_'

def isNameChar (c : Char) : Bool := c.isAlphanum || c == '_'

namespace Terminal

def all : List Terminal :=
  [binary, comma, decimal, equal, hexadecimal, name, lbrace, logical, lpar, multiplicative, octal,
    probeSpec, rbrace, relational, rpar, semicolon, slash, string, additive]

/-- What messages call it. -/
def title : Terminal → Text
  | binary => "BINARY_LITERAL".toList
  | comma => "COMMA".toList
  | decimal => "DECIMAL_LITERAL".toList
  | equal => "EQUAL".toList
  | hexadecimal => "HEX_LITERAL".toList
  | name => "ID".toList
  | lbrace => "LBRACE".toList
  | logical => "LOGOP".toList
  | lpar => "LPAR".toList
  | multiplicative => "MULOP".toList
  | octal => "OCTAL_LITERAL".toList
  | probeSpec => "PROBE_SPEC".toList
  | rbrace => "RBRACE".toList
  | relational => "RELOP".toList
  | rpar => "RPAR".toList
  | semicolon => "SEMICOLON".toList
  | slash => "SLASH".toList
  | string => "STRING_LITERAL".toList
  | additive => "SUMOP".toList

def ofRadix : Radix → Terminal
  | .binary => binary
  | .octal => octal
  | .decimal => decimal
  | .hexadecimal => hexadecimal

def ofOperator : Operator → Terminal
  | .and | .or => logical
  | .eq | .ne | .ge | .gt | .le | .lt => relational
  | .add | .subtract => additive
  | .multiply | .divide | .modulo => multiplicative

def operatorWord (terminal : Terminal) (t : Text) : Text :=
  match Operator.all.find? fun op => ofOperator op == terminal && op.symbol.isPrefixOf t with
  | some op => op.symbol
  | none => []

def mark (c : Char) (t : Text) : Text := if t.head? == some c then [c] else []

/-- The word that the terminal takes from the head of a text, empty if there is none. -/
def word : Terminal → Text → Text
  | binary, t => Radix.binary.word t
  | octal, t => Radix.octal.word t
  | decimal, t => Radix.decimal.word t
  | hexadecimal, t => Radix.hexadecimal.word t
  | probeSpec, t => t.takeWhile fun c => isSpecChar c || c == ':'
  | name, c :: rest => if isNameStart c then c :: rest.takeWhile isNameChar else []
  | string, '"' :: rest =>
    if rest.contains '"' then '"' :: rest.takeWhile (· != '"') ++ ['"'] else []
  | name, [] | string, _ => []
  | logical, t => operatorWord logical t
  | relational, t => operatorWord relational t
  | additive, t => operatorWord additive t
  | multiplicative, t => operatorWord multiplicative t
  | comma, t => mark ',' t
  | equal, t => mark '=' t
  | lbrace, t => mark '{' t
  | rbrace, t => mark '}' t
  | lpar, t => mark '(' t
  | rpar, t => mark ')' t
  | semicolon, t => mark ';' t
  | slash, t => mark '/' t

end Terminal

/-- The rules that messages name, in the order of their titles. -/
inductive Rule
  | assignment | body | call | integer | operand | predicate | probe | statement | value | tuple
  deriving DecidableEq, Repr

namespace Rule

def all : List Rule :=
  [assignment, body, call, integer, operand, predicate, probe, statement, value, tuple]

def title : Rule → Text
  | assignment => "assignment".toList
  | body => "body".toList
  | call => "fn_call".toList
  | integer => "integer".toList
  | operand => "operand".toList
  | predicate => "predicate".toList
  | probe => "probe_def".toList
  | statement => "statement".toList
  | value => "value".toList
  | tuple => "value_tuple".toList

end Rule
end ProbeScript.Phrase
