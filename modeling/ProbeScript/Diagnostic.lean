import ProbeScript.Text.Segment
import ProbeScript.Phrase.Tree
import ProbeScript.Phrase.Waiting

/-! What a message about a bad text says: where reading stopped, the rules being read there and
what would have let it go on. -/
namespace ProbeScript

structure Diagnostic where
  summary : Text
  position : Position
  rule : Option Text
  /-- In order, each once. -/
  expected : List Text
  deriving DecidableEq, Repr

namespace Diagnostic

def message (d : Diagnostic) : Text :=
  d.summary ++ " at line ".toList ++ Numeral.decimal d.position.line ++ ", column ".toList ++
    Numeral.decimal d.position.column ++
    if d.expected.isEmpty then [] else
      " (expected one of: ".toList ++ List.intercalate ", ".toList d.expected ++ [')']

/-- The message about a text that does not fall into segments. -/
def ofFault (source : Text) : Segment.Fault → Diagnostic
  | .invalidCharacter index c =>
    ⟨"Invalid character ".toList ++ Text.quoted [c], .at source index, some "token".toList, []⟩
  | .openString =>
    ⟨"Unterminated string literal".toList, .at source source.length,
      some "STRING_LITERAL".toList, ["\"".toList]⟩
  | .openComment index =>
    let opening := Position.at source index
    ⟨"Unterminated block comment opened at line ".toList ++ Numeral.decimal opening.line ++
        ", column ".toList ++ Numeral.decimal opening.column,
      .at source source.length, some "COMMENT".toList, ["*/".toList]⟩

/-- The names of the rules, if there are any. -/
def ruleText (rules : List Phrase.Rule) : Option Text :=
  if rules.isEmpty then none else some (List.intercalate " | ".toList (rules.map (·.title)))

/-- The message about a text that the grammar cannot go on with at the index, or at its end. -/
def ofStop (source : Text) (index : Nat) (waiting : List Phrase.Item) : Diagnostic where
  summary := match source[index]? with
    | some c => "Unexpected ".toList ++ Text.quoted [c]
    | none => "Unexpected end of input".toList
  position := .at source index
  rule := ruleText (Phrase.Item.rules waiting)
  expected := (Phrase.Item.expected waiting).map (·.title)

def ofMalformedSpec (source : Text) (index : Nat) (spec : Text) : Diagnostic :=
  ⟨"Malformed probe spec ".toList ++ Text.quoted spec ++
      ": at most four colon-separated parts are allowed".toList,
    .at source index, some "probe_spec".toList, []⟩

end Diagnostic
end ProbeScript
