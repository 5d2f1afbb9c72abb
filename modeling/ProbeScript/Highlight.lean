import ProbeScript.Phrase.Terminal
import ProbeScript.Text.Segment

/-! Colouring of source text. The highlighter knows no grammar: at each index it takes the first
kind of token that fits. It splits every text whatsoever into tokens and keeps count of the block
comments that stand open. -/
namespace ProbeScript.Highlight

inductive Kind
  | whitespace | lineComment | blockComment | string | probeSpec | hexadecimal | binary | octal
  | decimal | calledName | otherName | operator | punctuation | text
  deriving DecidableEq, Repr

def Kind.title : Kind → Text
  | whitespace => "Text.Whitespace".toList
  | lineComment => "Comment.Single".toList
  | blockComment => "Comment.Multiline".toList
  | string => "Literal.String.Double".toList
  | probeSpec => "Name.Namespace".toList
  | hexadecimal => "Literal.Number.Hex".toList
  | binary => "Literal.Number.Bin".toList
  | octal => "Literal.Number.Oct".toList
  | decimal => "Literal.Number.Integer".toList
  | calledName => "Name.Function".toList
  | otherName => "Name.Variable".toList
  | operator => "Operator".toList
  | punctuation => "Punctuation".toList
  | text => "Text".toList

/-- A token of a coloured text. -/
structure Token where
  index : Nat
  kind : Kind
  text : Text
  deriving DecidableEq, Repr

/-- What one rule takes from the head of a text: pieces of given kinds, empty ones left out. -/
abbrev Pieces := List (Kind × Text)

def piece (kind : Kind) (t : Text) : Pieces := if t.isEmpty then [] else [(kind, t)]

def lineCommentAt : Text → Text
  | '/' :: '/' :: rest => '/' :: '/' :: rest.takeWhile (· != '\n')
  | _ => []

/-- An event specification, which the highlighter knows by its colons. -/
def probeSpecAt (t : Text) : Text :=
  let w := Phrase.Terminal.probeSpec.word t
  if w.contains ':' then w else []

/-- A name before a parenthesis, with the white space between them. -/
def functionAt (t : Text) : Pieces :=
  let name := Phrase.Terminal.name.word t
  let gap := (t.drop name.length).takeWhile Text.isSpace
  if (t.drop (name.length + gap.length)).head? == some '(' then
    piece .calledName name ++ (if name.isEmpty then [] else piece .whitespace gap)
  else []

def operatorAt (t : Text) : Text :=
  match Operator.all.find? (·.symbol.isPrefixOf t) with
  | some op => op.symbol
  | none => Phrase.Terminal.equal.word t

def oneOf (cs : Text) : Text → Text
  | [] => []
  | c :: _ => if cs.contains c then [c] else []

/-- The rules outside comments, in the order in which they are tried. -/
def rules : List (Text → Pieces) :=
  [fun t => piece .whitespace (t.takeWhile Text.isSpace),
    fun t => piece .lineComment (lineCommentAt t),
    fun t => piece .blockComment (if "/*".toList.isPrefixOf t then "/*".toList else []),
    fun t => piece .string (Phrase.Terminal.string.word t),
    fun t => piece .probeSpec (probeSpecAt t),
    fun t => piece .hexadecimal (Radix.hexadecimal.word t),
    fun t => piece .binary (Radix.binary.word t),
    fun t => piece .octal (Radix.octal.word t),
    fun t => piece .decimal (t.takeWhile Char.isDigit),
    functionAt,
    fun t => piece .otherName (Phrase.Terminal.name.word t),
    fun t => piece .operator (operatorAt t),
    fun t => piece .punctuation (oneOf "()\x7b\x7d,;".toList t)]

/-- What the first rule that fits takes from the head of a text. Any other character is text. -/
def outside (t : Text) : Pieces :=
  match (rules.map (· t)).find? (!·.isEmpty) with
  | some ps => ps
  | none => piece .text (t.take 1)

/-- What stands at the head of a text inside a block comment. -/
def inside (t : Text) : Text :=
  if "/*".toList.isPrefixOf t then "/*".toList
  else if "*/".toList.isPrefixOf t then "*/".toList
  else match t.takeWhile (fun c => c != '*' && c != '/') with
    | [] => t.take 1
    | run => run

/-- The number of open block comments after a piece. -/
def depthAfter (depth : Nat) (p : Kind × Text) : Nat :=
  if p.1 = .blockComment then
    if p.2 = "/*".toList then depth + 1 else if p.2 = "*/".toList then depth - 1 else depth
  else depth

/-- The pieces at the head of a text, with `depth` block comments open. -/
def pieces (depth : Nat) (t : Text) : Pieces :=
  if depth = 0 then outside t else piece .blockComment (inside t)

/-- The pieces as tokens, the first of them at the index. -/
def placed (index : Nat) : Pieces → List Token
  | [] => []
  | (kind, t) :: rest => ⟨index, kind, t⟩ :: placed (index + t.length) rest

def width (ps : Pieces) : Nat := ps.foldr (fun p n => p.2.length + n) 0

/-- The tokens of a text whose first character stands at the index, after passing over the rest
of the pieces just taken. -/
def tokensFrom (depth index : Nat) : (passing : Nat) → Text → List Token
  | _, [] => []
  | passing + 1, _ :: rest => tokensFrom depth (index + 1) passing rest
  | 0, c :: rest =>
    let ps := pieces depth (c :: rest)
    placed index ps ++ tokensFrom (ps.foldl depthAfter depth) (index + 1) (width ps - 1) rest

def tokens (t : Text) : List Token := tokensFrom 0 0 0 t

/-- A text made ready for display: no byte order mark, plain line ends, and a line end after the
last line but none before the first. -/
def tidied (t : Text) : Text :=
  let unmarked := if t.head? == some Text.byteOrderMark then t.drop 1 else t
  Text.dropEnd (· == '\n') ((Text.unixLines unmarked).dropWhile (· == '\n')) ++ ['\n']

end ProbeScript.Highlight
