import ProbeScript.Text.Printable
import ProbeScript.Text.Numeral

/-! Quoting a text for a message: the mark that the text does not hold is preferred, and what
would not show is written by its code. -/
namespace ProbeScript.Text

def apostrophe : Char := '\x27'

/-- A text that holds apostrophes and no quotation mark is put between quotation marks. -/
def quoteMark (t : Text) : Char :=
  if t.contains apostrophe && !t.contains '"' then '"' else apostrophe

/-- A code in the given number of small hexadecimal digits. -/
def code (letter : Char) (width n : Nat) : Text :=
  let ds := (Radix.hexadecimal.digits n).map Char.toLower
  '\\' :: letter :: List.replicate (width - ds.length) '0' ++ ds

/-- One character between the given marks. -/
def escaped (mark c : Char) : Text :=
  if c == mark || c == '\\' then ['\\', c]
  else if c == '\n' then ['\\', 'n']
  else if c == '\r' then ['\\', 'r']
  else if c == '\t' then ['\\', 't']
  else if isPrintable c then [c]
  else if c.toNat < 0x100 then code 'x' 2 c.toNat
  else if c.toNat < 0x10000 then code 'u' 4 c.toNat
  else code 'U' 8 c.toNat

def quoted (t : Text) : Text :=
  quoteMark t :: t.flatMap (escaped (quoteMark t)) ++ [quoteMark t]

end ProbeScript.Text
