import ProbeScript.Text.Basic

/-! Numerals in the four bases of the language. Decimal numerals are limited in length, both when
they are read and when they are written; the other bases are not. -/
namespace ProbeScript

inductive Radix
  | binary | octal | decimal | hexadecimal
  deriving DecidableEq, Repr

namespace Radix

def base : Radix → Nat
  | binary => 2
  | octal => 8
  | decimal => 10
  | hexadecimal => 16

theorem two_le_base (r : Radix) : 2 ≤ r.base := by cases r <;> decide

/-- What stands before the digits in the source. -/
def marker : Radix → Text
  | binary => "0b".toList
  | octal => "0".toList
  | decimal => []
  | hexadecimal => "0x".toList

def isDigit : Radix → Char → Bool
  | binary, c => c == '0' || c == '1'
  | octal, c => '0' ≤ c && c ≤ '7'
  | decimal, c => c.isDigit
  | hexadecimal, c => c.isDigit || ('a' ≤ c && c ≤ 'f') || ('A' ≤ c && c ≤ 'F')

def digit (d : Nat) : Char := Char.ofNat (if d < 10 then 48 + d else 55 + d)

/-- The worth of a digit of any base, whatever its case. -/
def worth (c : Char) : Nat :=
  if c.isDigit then c.toNat - 48 else if c.isUpper then c.toNat - 55 else c.toNat - 87

/-- The digits of a number, the most significant first and no leading zero. -/
def digits (r : Radix) (n : Nat) : Text :=
  if n < r.base then [digit n] else r.digits (n / r.base) ++ [digit (n % r.base)]
termination_by n
decreasing_by
  have := r.two_le_base
  exact Nat.div_lt_self (by omega) (by omega)

/-- The number that a row of digits stands for. -/
def value (r : Radix) (ds : Text) : Nat := ds.foldl (fun n c => r.base * n + worth c) 0

/-- The literal at the head of a text, empty if there is none: the marker and as many digits as
there are, one at least. A decimal literal other than zero does not begin with a zero. -/
def word (r : Radix) (t : Text) : Text :=
  match r, t with
  | decimal, '0' :: _ => ['0']
  | _, _ =>
    if r.marker.isPrefixOf t then
      match (t.drop r.marker.length).takeWhile r.isDigit with
      | [] => []
      | ds => r.marker ++ ds
    else []

/-- The most digits that a decimal numeral may have. -/
def digitLimit : Nat := 4300

/-- The number that a row of digits stands for. Too long a row in decimal is refused, with the
count of its digits. -/
def read (r : Radix) (ds : Text) : Except Nat Nat :=
  if r = decimal ∧ digitLimit < ds.length then .error ds.length else .ok (r.value ds)

end Radix

namespace Numeral

def decimal (n : Nat) : Text := Radix.decimal.digits n

/-- The sign of a negative number comes after the marker of its base. -/
def signed (r : Radix) (n : Int) : Text :=
  r.marker ++ (if n < 0 then ['-'] else []) ++ r.digits n.natAbs

/-- The decimal numeral of a number, if it keeps within the limit. -/
def decimal? (n : Int) : Option Text :=
  if n.natAbs < Nat.pow 10 Radix.digitLimit then some (signed .decimal n) else none

/-- The number that a decimal numeral stands for, a minus sign before its digits if there is one. -/
def ofDecimal : Text → Except Nat Int
  | '-' :: ds => (Radix.decimal.read ds).map fun n => -(n : Int)
  | ds => (Radix.decimal.read ds).map Int.ofNat

/-- The complaint about a decimal numeral too long to read. -/
def tooManyDigits (count : Nat) : Text :=
  "Exceeds the limit (4300 digits) for integer string conversion: value has ".toList ++
    decimal count ++ " digits; use sys.set_int_max_str_digits() to increase the limit".toList

/-- The complaint about a number too large to write in decimal. -/
def tooLarge : Text :=
  ("Exceeds the limit (4300 digits) for integer string conversion; use " ++
    "sys.set_int_max_str_digits() to increase the limit").toList

end Numeral
end ProbeScript
