import ProbeScript.Phrase.Terminal

/-! Event specifications: up to four parts between colons, which name from coarse to fine the
provider, the package, the event and the mode. A part left empty matches anything. -/
namespace ProbeScript.ProbeSpec

def part (piece : Text) : Option Text := if piece.isEmpty then none else some piece

/-- The parts of a specification, if it is one: not empty, of the right characters and of four
parts at most. -/
def split? (t : Text) : Option (List (Option Text)) :=
  if t ≠ [] ∧ t.all (fun c => Phrase.isSpecChar c || c == ':') ∧ t.count ':' ≤ 3 then
    some ((Text.pieces ':' t).map part)
  else none

/-- The four parts, the last ones missing where there are fewer. -/
def named (parts : List (Option Text)) : List (Option Text) :=
  [0, 1, 2, 3].map fun i => (parts[i]?).join

/-- The four parts joined again, with a star for each that is missing. -/
def pattern (parts : List (Option Text)) : Text :=
  List.intercalate [':'] ((named parts).map (·.getD ['*']))

end ProbeScript.ProbeSpec
