import Mathlib.Data.List.FinRange
import Mathlib.Data.List.Nodup
import ProbeScript.Proofs.Tree.Siblings

/-! The search for nodes of given kinds. What it finds are the nodes at certain places of the tree:
each place once, and the places in the order of the text. -/
namespace ProbeScript.Node

/-- A place in a tree, by the child to go to at each step down. -/
abbrev Path := List Nat

/-- The node at a place, if the tree goes that far. -/
def at? : Path → Node → Option Node
  | [], n => some n
  | i :: path, n => n.children[i]?.bind (at? path)

/-- At the place stands a node of the given kinds, and at no place above it does one. -/
def IsOutermost (stop : NodeKind → Bool) (n : Node) (path : Path) : Prop :=
  (∃ m, at? path n = some m ∧ stop m.kind = true) ∧
    ∀ above m, above <+: path → above ≠ path → at? above n = some m → stop m.kind = false

/-- The nodes are those at the places where a node of the given kinds is outermost, one for each. -/
def Finds (stop : NodeKind → Bool) (n : Node) (found : List Node) : Prop :=
  ∃ paths : List Path, paths.Nodup ∧ (∀ path, path ∈ paths ↔ IsOutermost stop n path) ∧
    paths.map (at? · n) = found.map some

variable {stop : NodeKind → Bool} {c n : Node} {i : Nat} {path : Path}

private theorem at?_cons (h : n.children[i]? = some c) : at? (i :: path) n = at? path c := by
  rw [at?, h]
  rfl

private theorem isOutermost_iff_of_stop (h : stop n.kind = true) :
    IsOutermost stop n path ↔ path = [] := by
  constructor
  · rintro ⟨-, habove⟩
    by_contra hne
    have hroot := habove [] n (List.nil_prefix) (Ne.symm hne) rfl
    rw [h] at hroot
    cases hroot
  · rintro rfl
    refine ⟨⟨n, rfl, h⟩, fun above m hprefix hne _ => ?_⟩
    exact absurd (List.prefix_nil.1 hprefix) hne

private theorem not_isOutermost_nil (h : stop n.kind = false) : ¬ IsOutermost stop n [] := by
  rintro ⟨⟨m, hm, hstop⟩, -⟩
  obtain rfl := Option.some.inj hm
  rw [h] at hstop
  cases hstop

/-- Below a node of another kind, a place counts if it does in the tree of the child. -/
private theorem isOutermost_cons_iff (h : stop n.kind = false) : IsOutermost stop n (i :: path) ↔
    ∃ c, n.children[i]? = some c ∧ IsOutermost stop c path := by
  constructor
  · rintro ⟨⟨m, hm, hstop⟩, habove⟩
    obtain ⟨c, hc, hm⟩ := Option.bind_eq_some_iff.1 hm
    refine ⟨c, hc, ⟨m, hm, hstop⟩, fun above k hprefix hne hk => ?_⟩
    refine habove (i :: above) k (List.cons_prefix_cons.2 ⟨rfl, hprefix⟩) ?_ ?_
    · exact fun he => hne (List.cons.inj he).2
    · rwa [at?_cons hc]
  · rintro ⟨c, hc, ⟨m, hm, hstop⟩, habove⟩
    refine ⟨⟨m, by rwa [at?_cons hc], hstop⟩, fun above k hprefix hne hk => ?_⟩
    cases above with
    | nil =>
      obtain rfl := Option.some.inj hk
      exact h
    | cons j above =>
      obtain ⟨rfl, hbelow⟩ := List.cons_prefix_cons.1 hprefix
      rw [at?_cons hc] at hk
      exact habove above k hbelow (fun he => hne (by rw [he])) hk

/-! Places in a tree are those in the trees of the children, each after the step to the child. -/

/-- The places below the children, from left to right. -/
def gathered {k : Nat} (paths : Fin k → List Path) : List Path :=
  (List.finRange k).flatMap fun i => (paths i).map (i.val :: ·)

private theorem mem_gathered_iff {k : Nat} {paths : Fin k → List Path} :
    path ∈ gathered paths ↔ ∃ i, ∃ q ∈ paths i, path = i.val :: q := by
  simp only [gathered, List.mem_flatMap, List.mem_finRange, true_and, List.mem_map, eq_comm]

private theorem nodup_gathered {k : Nat} {paths : Fin k → List Path} (h : ∀ i, (paths i).Nodup) :
    (gathered paths).Nodup := by
  refine List.nodup_flatMap.2 ⟨fun i _ => (h i).map List.cons_injective, ?_⟩
  refine (List.nodup_finRange k).pairwise_of_forall_ne fun i _ j _ hne => ?_
  rintro _ hi hj
  obtain ⟨q, -, rfl⟩ := List.mem_map.1 hi
  obtain ⟨q', -, he⟩ := List.mem_map.1 hj
  exact hne (Fin.ext (List.cons.inj he).1.symm)

private theorem map_at?_gathered (paths : Fin n.children.length → List Path) :
    (gathered paths).map (at? · n) =
      (List.finRange _).flatMap fun i => (paths i).map (at? · (n.children.get i)) := by
  rw [gathered, List.map_flatMap]
  refine List.flatMap_congr fun i _ => ?_
  rw [List.map_map]
  exact List.map_congr_left fun q _ => at?_cons (List.getElem?_eq_getElem i.isLt)

theorem outermost_finds (stop : NodeKind → Bool) (n : Node) :
    Finds stop n (n.outermost stop) := by
  rw [outermost_eq]
  cases hstop : stop n.kind with
  | true =>
    refine ⟨[[]], List.nodup_singleton _, fun path => ?_, rfl⟩
    rw [isOutermost_iff_of_stop hstop, List.mem_singleton]
  | false =>
    -- the root does not count, so each place begins with a step to a child
    have hchild (i : Fin n.children.length) := outermost_finds stop (n.children.get i)
    choose paths hnodup hmem hmap using hchild
    refine ⟨gathered paths, nodup_gathered hnodup, fun path => ?_, ?_⟩
    · rw [mem_gathered_iff]
      constructor
      · rintro ⟨i, q, hq, rfl⟩
        exact (isOutermost_cons_iff hstop).2
          ⟨_, List.getElem?_eq_getElem i.isLt, (hmem i q).1 hq⟩
      · intro hpath
        cases path with
        | nil => exact absurd hpath (not_isOutermost_nil hstop)
        | cons i q =>
          obtain ⟨c, hc, hq⟩ := (isOutermost_cons_iff hstop).1 hpath
          obtain ⟨hi, rfl⟩ := List.getElem?_eq_some_iff.1 hc
          exact ⟨⟨i, hi⟩, q, (hmem ⟨i, hi⟩ q).2 hq, rfl⟩
    · have hall := List.map_get_finRange n.children
      rw [if_neg (by simp), map_at?_gathered, funext hmap, List.map_flatMap]
      conv_rhs => rw [← hall, List.flatMap_map]
termination_by sizeOf n
decreasing_by exact sizeOf_lt_of_mem_children (List.get_mem _ _)

private theorem mem_nodes_of_mem_outermost {m n : Node} (h : m ∈ n.outermost stop) :
    m ∈ n.nodes := by
  rw [outermost_eq] at h
  split at h
  · rw [List.mem_singleton.1 h]
    exact n.self_mem_nodes
  · obtain ⟨c, hc, hm⟩ := List.mem_flatMap.1 h
    exact mem_nodes_iff.2 (.inr ⟨c, hc, mem_nodes_of_mem_outermost hm⟩)
termination_by sizeOf n
decreasing_by exact sizeOf_lt_of_mem_children hc

/-- In a tree of nested nodes, those found precede one another. -/
theorem pairwise_precedes_outermost {n : Node} (h : ∀ k ∈ n.nodes, k.Nested) :
    (n.outermost stop).Pairwise Precedes := by
  rw [outermost_eq]
  split
  · exact List.pairwise_singleton _ _
  have hchild : ∀ c ∈ n.children, ∀ k ∈ c.nodes, k.Nested :=
    fun c hc k hk => h k (mem_nodes_iff.2 (.inr ⟨c, hc, hk⟩))
  refine List.pairwise_flatMap.2 ⟨fun c hc => pairwise_precedes_outermost (hchild c hc), ?_⟩
  refine (h n n.self_mem_nodes).ordered.imp_of_mem fun {c d} hc hd hprecedes m hm k hk => ?_
  have hm := mem_nodes_of_mem_outermost hm
  have hk := mem_nodes_of_mem_outermost hk
  exact hprecedes.inside (inside_of_mem_nodes (hchild c hc) m hm)
    (inside_of_mem_nodes (hchild d hd) k hk) (hchild c hc m hm)
termination_by sizeOf n
decreasing_by exact sizeOf_lt_of_mem_children hc

end ProbeScript.Node
