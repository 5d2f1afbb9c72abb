import ProbeScript.Tree.Outline

/-! The nodes of a tree, and what holds of each of them. -/
namespace ProbeScript.Node

/-- The nodes of a tree, parents before children. -/
def nodes (n : Node) : List Node := (n.listing 0).map Prod.snd

private theorem map_snd_listing (depth : Nat) (n : Node) :
    (n.listing depth).map Prod.snd = n.nodes := by
  rw [nodes, listing_eq, listing_eq, List.map_cons, List.map_cons, List.map_flatMap,
    List.map_flatMap, List.flatMap, List.flatMap]
  congr 2
  apply List.map_congr_left
  intro c hc
  rw [map_snd_listing (depth + 1) c, map_snd_listing (0 + 1) c]
termination_by sizeOf n
decreasing_by all_goals exact sizeOf_lt_of_mem_children ‹_›

private theorem nodes_eq (n : Node) : n.nodes = n :: n.children.flatMap nodes := by
  have h : (fun c => (listing (0 + 1) c).map Prod.snd) = nodes :=
    funext fun c => map_snd_listing (0 + 1) c
  rw [nodes, listing_eq, List.map_cons, List.map_flatMap, h]

theorem mem_nodes_iff {m n : Node} : m ∈ n.nodes ↔ m = n ∨ ∃ c ∈ n.children, m ∈ c.nodes := by
  rw [nodes_eq, List.mem_cons, List.mem_flatMap]

/-- What holds of a node and of all nodes below its children holds of all nodes of the tree. -/
theorem forall_mem_nodes {P : Node → Prop} {n : Node} (h : P n)
    (hc : ∀ c ∈ n.children, ∀ m ∈ c.nodes, P m) : ∀ m ∈ n.nodes, P m := by
  intro m hm
  rcases mem_nodes_iff.1 hm with rfl | ⟨c, hmem, hm⟩
  · exact h
  · exact hc c hmem m hm

theorem self_mem_nodes (n : Node) : n ∈ n.nodes := mem_nodes_iff.2 (.inl rfl)

theorem mem_nodes_trans {k m n : Node} (h : k ∈ m.nodes) (hm : m ∈ n.nodes) : k ∈ n.nodes := by
  rcases mem_nodes_iff.1 hm with rfl | ⟨c, hc, hm⟩
  · exact h
  · exact mem_nodes_iff.2 (.inr ⟨c, hc, mem_nodes_trans h hm⟩)
termination_by sizeOf n
decreasing_by exact sizeOf_lt_of_mem_children hc

end ProbeScript.Node
