import ProbeScript.Tree.FromText

/-! What reading a text tells of its course, for those who ask to see it. -/
namespace ProbeScript

inductive Event
  | scriptBegun (length : Nat)
  | blanked (comments length : Nat)
  | scriptDone (probes : Nat)
  deriving DecidableEq, Repr

namespace Event

def title : Event → Text
  | scriptBegun _ => "parsing script".toList
  | blanked .. => "lexical pass complete".toList
  | scriptDone _ => "parsed script".toList

/-- The figures that go with the event, in the order of their names. -/
def figures : Event → List (Text × Nat)
  | scriptBegun length => [("length".toList, length)]
  | blanked comments length => [("comment_count".toList, comments), ("length".toList, length)]
  | scriptDone probes => [("probe_count".toList, probes)]

/-- The event as a line of a log. -/
def line (e : Event) : Text :=
  "[debug    ] ".toList ++ Text.padded 30 e.title ++ [' '] ++
    List.intercalate [' '] (e.figures.map fun (name, n) => name ++ '=' :: Numeral.decimal n) ++
    ['\n']

end Event

namespace Journal

def ofExpression (source : Text) : List Event :=
  match Segment.ofText source with
  | .error _ => []
  | .ok ss => [.blanked (Segment.commentCount ss) source.length]

def ofScript (source : Text) : List Event :=
  .scriptBegun source.length :: ofExpression source ++
    match readScript source with
    | .error _ => []
    | .ok script => [.scriptDone script.children.length]

def text (es : List Event) : Text := es.flatMap Event.line

end Journal
end ProbeScript
