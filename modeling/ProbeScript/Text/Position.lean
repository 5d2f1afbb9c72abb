import ProbeScript.Text.Basic

/-! Where a character stands. A line ends after each line feed and nowhere else; a position is
counted in bytes from the start, and in lines and columns from one. -/
namespace ProbeScript

structure Position where
  /-- Bytes before it, in UTF-8. -/
  offset : Nat
  line : Nat
  column : Nat
  deriving DecidableEq, Repr

/-- The last line of a text, as far as it goes. -/
def Text.lastLine (t : Text) : Text := (t.reverse.takeWhile (· != '\n')).reverse

/-- The position of an index. Past the end only the column goes on. It is defined for every text and
index, since what stands before the index always has an encoding, as said of `Text`. -/
def Position.at (t : Text) (index : Nat) : Position where
  offset := (t.take index).foldr (fun c bytes => c.utf8Size + bytes) 0
  line := (t.take index).count '\n' + 1
  column := (Text.lastLine (t.take index)).length + (index - t.length) + 1

/-- A stretch of text, by the line and column of its first character and of the one after
its last. -/
structure Span where
  line : Nat
  column : Nat
  endLine : Nat
  endColumn : Nat
  deriving DecidableEq, Repr

namespace Span

def between (t : Text) (start stop : Nat) : Span :=
  let first := Position.at t start
  let last := Position.at t stop
  ⟨first.line, first.column, last.line, last.column⟩

/-- From the start of the first to the end of the last, if both are known. -/
def join : Option Span → Option Span → Option Span
  | some first, some last => some ⟨first.line, first.column, last.endLine, last.endColumn⟩
  | _, _ => none

end Span
end ProbeScript
