import ProbeScript.Text.Position
import ProbeScript.Text.Quoted

/-! A text is a row of string literals, comments and single characters. Comments are blanked out
before the grammar sees the text; blanking keeps the length and the lines, so that positions stay
what they are. -/
namespace ProbeScript

inductive Segment
  /-- The characters between the quotation marks. -/
  | string (inner : Text)
  /-- The characters from the two slashes to the end of the line. -/
  | lineComment (body : Text)
  /-- The characters from the first opening mark to its closing mark. -/
  | blockComment (body : Text)
  | plain (c : Char)
  deriving DecidableEq, Repr

namespace Segment

def text : Segment → Text
  | string inner => '"' :: inner ++ ['"']
  | lineComment body => body
  | blockComment body => body
  | plain c => [c]

def isComment : Segment → Bool
  | lineComment _ | blockComment _ => true
  | _ => false

def blank (c : Char) : Char := if c == '\n' then c else ' '

/-- Comments give way to blanks; all else stays. -/
def blanked (s : Segment) : Text := if s.isComment then s.text.map blank else s.text

/-- The characters that may stand outside strings and comments. -/
def inAlphabet (c : Char) : Bool :=
  c.isAlphanum || Text.isLayout c || "_*+\\?![]:/\x7b\x7d(),;=<>&|%-".toList.contains c

/-- The rest of a block comment, up to the closing mark that leaves none of the marks open, when
`depth` further ones stand open; and what follows it. -/
def closeBlock : (depth : Nat) → Text → Option (Text × Text)
  | depth, '/' :: '*' :: rest =>
    (closeBlock (depth + 1) rest).map fun (body, after) => ('/' :: '*' :: body, after)
  | 0, '*' :: '/' :: rest => some (['*', '/'], rest)
  | depth + 1, '*' :: '/' :: rest =>
    (closeBlock depth rest).map fun (body, after) => ('*' :: '/' :: body, after)
  | depth, c :: rest => (closeBlock depth rest).map fun (body, after) => (c :: body, after)
  | _, [] => none

/-- Why a text does not fall into segments. -/
inductive Fault
  | invalidCharacter (index : Nat) (c : Char)
  | openString
  /-- The comment opened at the index has no end. -/
  | openComment (index : Nat)
  deriving DecidableEq, Repr

/-- The segment that begins with the character at the index, and what follows it. -/
def first (index : Nat) : Char → Text → Except Fault (Segment × Text)
  | '"', rest =>
    match rest.dropWhile (· != '"') with
    | [] => .error .openString
    | _ :: after => .ok (string (rest.takeWhile (· != '"')), after)
  | '/', '/' :: rest =>
    .ok (lineComment ('/' :: '/' :: rest.takeWhile (· != '\n')), rest.dropWhile (· != '\n'))
  | '/', '*' :: rest =>
    match closeBlock 0 rest with
    | none => .error (.openComment index)
    | some (body, after) => .ok (blockComment ('/' :: '*' :: body), after)
  | c, rest => if inAlphabet c then .ok (plain c, rest) else .error (.invalidCharacter index c)

theorem closeBlock_append {depth : Nat} {t body after : Text}
    (h : closeBlock depth t = some (body, after)) : t = body ++ after := by
  fun_induction closeBlock depth t generalizing body with
  | case2 => obtain ⟨rfl, rfl⟩ := Prod.mk.inj (Option.some.inj h); rfl
  | case5 => simp at h
  | case1 | case3 | case4 =>
    rename_i ih
    obtain ⟨⟨b, a⟩, hb, he⟩ := Option.map_eq_some_iff.1 h
    obtain ⟨rfl, rfl⟩ := Prod.mk.inj he
    simp [ih hb]

/-- A segment and what follows it make up the text. -/
theorem first_append {index : Nat} {c : Char} {rest after : Text} {s : Segment}
    (h : first index c rest = .ok (s, after)) : c :: rest = s.text ++ after := by
  revert h
  fun_cases first index c rest with
  | case1 | case4 | case7 => intro h; cases h
  | case2 rest q tail hq =>
    rintro ⟨⟩
    have hc : q = '"' := by
      simpa [hq] using List.head_dropWhile_not (p := (· != '"')) (l := rest) (by simp [hq])
    have := List.takeWhile_append_dropWhile (p := (· != '"')) (l := rest)
    simp_all [text]
  | case3 => rintro ⟨⟩; simp [text]
  | case5 rest body tail hb => rintro ⟨⟩; simp [text, closeBlock_append hb]
  | case6 => rintro ⟨⟩; simp [text]

theorem first_length {index : Nat} {c : Char} {rest after : Text} {s : Segment}
    (h : first index c rest = .ok (s, after)) : after.length < (c :: rest).length := by
  have hlen := congrArg List.length (first_append h)
  have hpos : 0 < s.text.length := by
    revert h
    fun_cases first index c rest <;> intro h <;> cases h <;> simp [text]
  simp only [List.length_append] at hlen
  omega

/-- The segments of a text whose first character stands at the index. -/
def split (index : Nat) : Text → Except Fault (List Segment)
  | [] => .ok []
  | c :: rest =>
    match _h : first index c rest with
    | .error fault => .error fault
    | .ok (s, after) =>
      match split (index + s.text.length) after with
      | .error fault => .error fault
      | .ok ss => .ok (s :: ss)
termination_by t => t.length
decreasing_by exact first_length ‹_›

theorem split_append {index : Nat} {t : Text} {ss : List Segment} (h : split index t = .ok ss) :
    ss.flatMap text = t := by
  fun_induction split index t generalizing ss with
  | case1 => cases h; rfl
  | case2 => cases h
  | case3 => simp_all
  | case4 index c rest s after hs ss' hss ih =>
    cases h
    simp [ih hss, first_append hs]

/-- A byte order mark at the head of a text counts as a space. -/
def unmarked : Text → Text
  | [] => []
  | c :: rest => (if c == Text.byteOrderMark then ' ' else c) :: rest

def ofText (t : Text) : Except Fault (List Segment) := split 0 (unmarked t)

def commentCount (ss : List Segment) : Nat := ss.countP isComment

end Segment

/-- The text as the grammar sees it. -/
def Text.blanked (t : Text) : Except Segment.Fault Text :=
  (Segment.ofText t).map (·.flatMap Segment.blanked)

end ProbeScript
