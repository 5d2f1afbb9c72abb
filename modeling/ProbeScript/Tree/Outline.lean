import ProbeScript.Tree.Source
import ProbeScript.Text.Quoted

/-! Walks over a tree: the outline, one line for each node, and the search for nodes of given
kinds. Both follow the children from left to right. -/
namespace ProbeScript.Node

/-- The nodes of a tree, each with its depth below the given one, parents before children. -/
def listing (depth : Nat) (n : Node) : List (Nat × Node) :=
  (depth, n) :: n.children.attach.flatMap fun ⟨c, _⟩ => c.listing (depth + 1)
termination_by sizeOf n
decreasing_by exact sizeOf_lt_of_mem_children ‹_›

theorem listing_eq (depth : Nat) (n : Node) :
    n.listing depth = (depth, n) :: n.children.flatMap (listing (depth + 1)) := by
  rw [listing, List.flatMap_subtype (g := listing (depth + 1)) (by simp), List.unattach_attach]

/-- What the outline tells of a node besides its kind. -/
def details : Node → Except PrintError Text
  | spec parts _ => .ok (' ' :: specText parts)
  | probe _ none _ _ => .ok " (unconditional)".toList
  | binary op _ _ _ => .ok (' ' :: op.symbol)
  | call name _ _ | identifier name _ => .ok (' ' :: name)
  | integer value base _ =>
    match Numeral.decimal? value with
    | none => .error .tooLarge
    | some v => .ok (' ' :: v ++ " (base ".toList ++ Numeral.signed .decimal base ++ [')'])
  | string value _ => .ok (' ' :: Text.quoted value)
  | _ => .ok []

def outlineLine (depth : Nat) (n : Node) : Except PrintError Text :=
  return List.replicate (4 * depth) ' ' ++ n.kind.title ++ (← n.details)

/-- The tree as an outline, each level indented by four spaces. -/
def outline (n : Node) : Except PrintError Text :=
  return List.intercalate ['\n'] (← (n.listing 0).mapM fun (depth, c) => outlineLine depth c)

/-- The nodes of the given kinds that lie below no other such node, from left to right. -/
def outermost (stop : NodeKind → Bool) (n : Node) : List Node :=
  if stop n.kind then [n] else n.children.attach.flatMap fun ⟨c, _⟩ => c.outermost stop
termination_by sizeOf n
decreasing_by exact sizeOf_lt_of_mem_children ‹_›

theorem outermost_eq (stop : NodeKind → Bool) (n : Node) :
    n.outermost stop = if stop n.kind then [n] else n.children.flatMap (outermost stop) := by
  rw [outermost, List.flatMap_subtype (g := outermost stop) (by simp), List.unattach_attach]

end ProbeScript.Node
