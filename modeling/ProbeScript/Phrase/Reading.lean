import ProbeScript.Phrase.Waiting
import ProbeScript.Text.Basic

/-! Reading a text into a phrase. At each index every terminal that the phrase waits for is tried,
and the longest word goes on. Among these terminals only those of numbers take words of different
lengths from one place, and nothing that may follow a number begins with a letter or a digit, so a
shorter word never leads further. -/
namespace ProbeScript.Phrase

/-- The longest of the words, the first of those of equal length. -/
def longest : List Token → Option Token
  | [] => none
  | t :: ts =>
    match longest ts with
    | none => some t
    | some u => if u.lexeme.text.length ≤ t.lexeme.text.length then some t else some u

namespace Partial

/-- The words at the head of a text that the phrase can go on with. -/
def candidates (p : Partial) (index : Nat) (t : Text) : List Token :=
  (p.waiting.map fun i => ⟨i.terminal, index, i.terminal.word t⟩).filter (·.lexeme.text ≠ [])

/-- The next token and the phrase after it. -/
def next? (p : Partial) (index : Nat) (t : Text) : Option (Token × Partial) :=
  match longest (p.candidates index t) with
  | none => none
  | some token => (p.advance token).map (token, ·)

/-- Reads a text whose first character stands at the index, after passing over the rest of the
word just read. Where no token fits, the index and the phrase so far are the result. -/
def read (p : Partial) (index : Nat) : (passing : Nat) → Text → Except (Nat × Partial) Partial
  | _, [] => .ok p
  | passing + 1, _ :: rest => p.read (index + 1) passing rest
  | 0, c :: rest =>
    if Text.isLayout c then p.read (index + 1) 0 rest
    else match p.next? index (c :: rest) with
      | none => .error (index, p)
      | some (token, q) => q.read (index + 1) (token.lexeme.text.length - 1) rest

end Partial
end ProbeScript.Phrase
