/-! Texts, white space, and the cuts that the tools make at the ends of a text. -/
namespace ProbeScript

/-- A text is the list of its characters, so that an index into it counts characters. They are
Unicode scalar values: no text holds a surrogate, and every text has an encoding in UTF-8. -/
abbrev Text := List Char

namespace Text

/-- White space of Unicode, and the four control characters that separate records. -/
def isSpace (c : Char) : Bool :=
  let n := c.toNat
  (9 ≤ n && n ≤ 13) || (28 ≤ n && n ≤ 32) || n == 0x85 || n == 0xA0 || n == 0x1680 ||
    (0x2000 ≤ n && n ≤ 0x200A) || n == 0x2028 || n == 0x2029 || n == 0x202F || n == 0x205F ||
    n == 0x3000

/-- The white space that separates tokens. -/
def isLayout (c : Char) : Bool := c == ' ' || c == '\t' || c == '\r' || c == '\n'

def isBlank (t : Text) : Bool := t.all isSpace

/-- The text without the characters of the class at its end. -/
def dropEnd (p : Char → Bool) (t : Text) : Text := (t.reverse.dropWhile p).reverse

def stripEnd (t : Text) : Text := dropEnd isSpace t

/-- The text filled up with spaces to the given width. -/
def padded (width : Nat) (t : Text) : Text := t ++ List.replicate (width - t.length) ' '

/-- The pieces of a text between the marks. -/
def pieces (mark : Char) : Text → List Text
  | [] => [[]]
  | c :: rest =>
    if c == mark then [] :: pieces mark rest
    else match pieces mark rest with
      | [] => [[c]]
      | p :: ps => (c :: p) :: ps

def byteOrderMark : Char := '\ufeff'

/-- Each line end, of whichever of the three common forms, becomes a single line feed. -/
def unixLines : Text → Text
  | [] => []
  | '\r' :: '\n' :: rest => '\n' :: unixLines rest
  | c :: rest => (if c == '\r' then '\n' else c) :: unixLines rest

end Text
end ProbeScript
