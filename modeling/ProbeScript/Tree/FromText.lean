import ProbeScript.Diagnostic
import ProbeScript.Phrase.Reading

/-! Texts read into trees, as scripts or as single expressions. -/
namespace ProbeScript

inductive ReadError
  /-- The text does not fall into strings, comments and characters of the language. -/
  | lexical (d : Diagnostic)
  /-- The text does not follow the grammar. -/
  | grammatical (d : Diagnostic)
  /-- A decimal literal has more digits than the limit. -/
  | digits (count : Nat)
  deriving DecidableEq, Repr

namespace ReadError

def message : ReadError → Text
  | lexical d | grammatical d => d.message
  | digits count => Numeral.tooManyDigits count

/-- What to say of the text, if the text is at fault and not the length of a numeral. -/
def diagnostic? : ReadError → Option Diagnostic
  | lexical d | grammatical d => some d
  | digits _ => none

def ofTreeFault (source : Text) : Phrase.TreeFault → ReadError
  | .digits count => digits count
  | .malformedSpec index spec => grammatical (.ofMalformedSpec source index spec)

end ReadError

open Phrase

/-- Reads the whole text from the given start, to a phrase that may end there. -/
def readPhrase {α : Type} (start : Partial) (finish : Partial → Option α) (source : Text) :
    Except ReadError α := do
  let text ← (Text.blanked source).mapError (.lexical ∘ .ofFault source)
  let last ← (start.read 0 0 text).mapError fun (index, p) =>
    .grammatical (.ofStop source index p.waiting)
  match finish last with
  | none => .error (.grammatical (.ofStop source source.length last.waiting))
  | some phrase => .ok phrase

def readScript (source : Text) : Except ReadError Node := do
  let phrase ← readPhrase (.probeDue []) Partial.script? source
  (phrase.tree source).mapError (.ofTreeFault source)

def readExpression (source : Text) : Except ReadError Node := do
  let phrase ← readPhrase (.operandDue (.start .alone)) Partial.expression? source
  (phrase.tree source).mapError (.ofTreeFault source)

end ProbeScript
