import ProbeScript.Proofs.RoundTrip
import ProbeScript.Proofs.Tree.Nodes

/-! What the nodes of a tree are made of when it was read from a text. No node is checked when it is
made; these rules come of the grammar, of the grouping of operands and of the rewriting of
arguments. -/
namespace ProbeScript.Node

open Phrase (Terminal asArgument)

/-- What a node has to be made of, by its kind. -/
def Shaped : Node → Prop
  | plain _ => False
  | identifier name _ => Terminal.name.Spells name
  | integer value base _ => 0 ≤ value ∧ base ∈ [2, 8, 10, 16] ∧
    (base = 10 → (Numeral.decimal value.toNat).length ≤ 4300)
  | string value _ => '"' ∉ value
  | binary op left right _ =>
    (∀ o ∈ left.operator?, op.tier ≤ o.tier) ∧ ∀ o ∈ right.operator?, op.tier < o.tier
  | parenthesized .. => True
  | tuple values _ => values ≠ [] ∧ ∀ v ∈ values, v.kind ∈ [.identifier, .integer, .string]
  | call name args _ => Terminal.name.Spells name ∧
    ∀ inner span, .parenthesized inner span ∈ args → inner.kind ∉ [.identifier, .integer, .string]
  | assignment target _ _ => target.kind = .identifier
  | spec parts _ => IsSpec parts
  | probe event _ body _ =>
    event.kind = .spec ∧ body ≠ [] ∧ ∀ s ∈ body, s.kind ∈ [.call, .assignment]
  | script probes _ => probes ≠ [] ∧ ∀ p ∈ probes, p.kind = .probe

/-- A node of the right make, with no tuple below it that is not an argument of a call. -/
structure WellFormed (n : Node) : Prop where
  shaped : n.Shaped
  tuple_child : ∀ c ∈ n.children, c.kind = .tuple → n.kind = .call

variable {n : Node}

/-- Where no child is a tuple. -/
private theorem WellFormed.of_children (h : n.Shaped) (hc : ∀ c ∈ n.children, c.kind ≠ .tuple) :
    n.WellFormed :=
  ⟨h, fun c hmem hk => absurd hk (hc c hmem)⟩

private theorem IsValue.kind_mem (h : IsValue n) : n.kind ∈ [.identifier, .integer, .string] := by
  cases h <;> simp [kind]

private theorem IsExpression.kind_ne (h : IsExpression n) : n.kind ≠ .tuple := by
  cases h with
  | value h => cases h <;> simp [kind]
  | binary | parenthesized | call => simp [kind]

private theorem IsStatement.kind_mem (h : IsStatement n) : n.kind ∈ [.call, .assignment] := by
  cases h <;> simp [kind]

private theorem IsProbe.kind_eq (h : IsProbe n) : n.kind = .probe := by
  cases h
  rfl

private theorem IsValue.wellFormed (h : IsValue n) : ∀ m ∈ n.nodes, m.WellFormed := by
  apply forall_mem_nodes
  · apply WellFormed.of_children
    · cases h with
      | identifier span hname => exact hname
      | @integer r n span hlt =>
        refine ⟨Int.natCast_nonneg n, by cases r <;> decide, fun hr => ?_⟩
        have hr : r = .decimal := by
          revert hr
          cases r <;> decide
        have hlt := hlt hr
        rw [show 10 = r.base by rw [hr]; rfl] at hlt
        have hlen : (r.digits n).length ≤ Radix.digitLimit :=
          Radix.length_digits_le (Nat.succ_pos _) hlt
        rw [Int.toNat_natCast, Numeral.decimal, ← hr]
        exact hlen
      | string span ht => exact ht
    · cases h <;> simp [children]
  · cases h <;> simp [children]

private theorem eq_of_map_eq {f : Node → Node} {ns : List Node} (h : ns.map f = ns) :
    ∀ m ∈ ns, f m = m :=
  List.map_inj_left.1 (h.trans (List.map_id ns).symm)

private theorem tier_of_operator {o : Operator} (h : o ∈ n.operator?) : n.tier = o.tier := by
  rw [tier, Option.mem_def.1 h]
  rfl

private theorem eq_of_wrapped {needed : Bool} {m : Node} (h : wrapped needed m = n)
    (hn : needed = true → n.tier < 5) : needed = false ∧ m = n := by
  cases needed with
  | false => exact ⟨rfl, h⟩
  | true =>
    have htier : (wrapped true m).tier = 5 := rfl
    rw [h] at htier
    exact absurd (hn rfl) (by omega)

/-- Operands that need no parentheses bind tightly enough. -/
private theorem operands_of_normal {op : Operator} {left right : Node} {span : Option Span}
    (h : (binary op left right span).normal = .binary op left right span) :
    left.normal = left ∧ right.normal = right ∧
      (∀ o ∈ left.operator?, op.tier ≤ o.tier) ∧ ∀ o ∈ right.operator?, op.tier < o.tier := by
  have hop := op.tier_lt
  rw [normal, breaksLeft_eq, breaksRight_eq] at h
  obtain ⟨-, hleft, hright, -⟩ := binary.inj h
  obtain ⟨hle, hleft⟩ := eq_of_wrapped hleft fun hb => by
    have := of_decide_eq_true hb
    omega
  obtain ⟨hlt, hright⟩ := eq_of_wrapped hright fun hb => by
    have := of_decide_eq_true hb
    omega
  refine ⟨hleft, hright, fun o ho => ?_, fun o ho => ?_⟩
  · rw [← tier_of_operator ho]
    exact Nat.not_lt.1 (of_decide_eq_false hle)
  · rw [← tier_of_operator ho]
    exact Nat.not_le.1 (of_decide_eq_false hlt)

private theorem asArgument_parenthesized {v : Node} (span : Option Span)
    (hk : v.kind ∈ [.identifier, .integer, .string]) :
    asArgument (.parenthesized v span) = .tuple [v] span := by
  cases v with
  | identifier | integer | string => rfl
  | _ => simp [kind] at hk

/-- An expression that is read again as it is where an argument is wanted. -/
private theorem IsExpression.of_asArgument (h : IsExpression n) (he : asArgument n.normal = n) :
    n.normal = n ∧ ∀ inner span, n = .parenthesized inner span →
      inner.kind ∉ [.identifier, .integer, .string] := by
  have hnorm : n.normal = n := by
    rcases asArgument_cases n.normal with hn | ⟨v, span, -, hn, -⟩
    · rw [← hn, he]
    · rw [he] at hn
      exact absurd (hn ▸ rfl) h.kind_ne
  refine ⟨hnorm, ?_⟩
  rintro inner span rfl hk
  rw [hnorm, asArgument_parenthesized span hk] at he
  cases he

mutual

private theorem IsExpression.wellFormed : {n : Node} → IsExpression n → n.normal = n →
    ∀ m ∈ n.nodes, m.WellFormed
  | _, .value h, _ => h.wellFormed
  | .binary op left right span, .binary _ _ hleft hright, hn => by
    obtain ⟨hl, hr, hle, hlt⟩ := operands_of_normal hn
    apply forall_mem_nodes
    · apply WellFormed.of_children
      · exact ⟨hle, hlt⟩
      · exact List.forall_mem_cons.2 ⟨hleft.kind_ne, List.forall_mem_singleton.2 hright.kind_ne⟩
    · exact List.forall_mem_cons.2 ⟨hleft.wellFormed hl,
        List.forall_mem_singleton.2 (hright.wellFormed hr)⟩
  | .parenthesized inner span, .parenthesized _ h, hn => by
    rw [normal] at hn
    obtain ⟨hinner, -⟩ := parenthesized.inj hn
    apply forall_mem_nodes
    · exact .of_children trivial (List.forall_mem_singleton.2 h.kind_ne)
    · exact List.forall_mem_singleton.2 (h.wellFormed hinner)
  | .call name args span, .call _ hname hargs, hn => by
    rw [normal, normalArguments_eq] at hn
    obtain ⟨-, hn, -⟩ := call.inj hn
    have hnorm : ∀ a ∈ args, asArgument a.normal = a := eq_of_map_eq hn
    apply forall_mem_nodes
    · refine ⟨⟨hname, fun inner span' ha => ?_⟩, fun _ _ _ => rfl⟩
      cases hargs _ ha with
      | expression h => exact (h.of_asArgument (hnorm _ ha)).2 inner span' rfl
    · exact fun a ha => (hargs a ha).wellFormed (hnorm a ha)

private theorem IsArgument.wellFormed : {n : Node} → IsArgument n → asArgument n.normal = n →
    ∀ m ∈ n.nodes, m.WellFormed
  | _, .expression h, he => h.wellFormed (h.of_asArgument he).1
  | _, .tuple span hne h, _ => by
    apply forall_mem_nodes
    · apply WellFormed.of_children
      · exact ⟨hne, fun v hv => (h v hv).kind_mem⟩
      · exact fun v hv => (IsExpression.value (h v hv)).kind_ne
    · exact fun v hv => (h v hv).wellFormed

end

private theorem IsStatement.wellFormed (h : IsStatement n) (hn : n.normal = n) :
    ∀ m ∈ n.nodes, m.WellFormed := by
  cases h with
  | @call name args span hname hargs => exact (IsExpression.call span hname hargs).wellFormed hn
  | @assignment name value span span' hname hvalue =>
    rw [normal] at hn
    obtain ⟨-, hn, -⟩ := assignment.inj hn
    have htarget := IsValue.identifier span hname
    apply forall_mem_nodes
    · apply WellFormed.of_children
      · rfl
      · exact List.forall_mem_cons.2 ⟨(IsExpression.value htarget).kind_ne,
          List.forall_mem_singleton.2 hvalue.kind_ne⟩
    · exact List.forall_mem_cons.2 ⟨htarget.wellFormed,
        List.forall_mem_singleton.2 (hvalue.wellFormed hn)⟩

private theorem IsProbe.wellFormed (h : IsProbe n) (hn : n.normal = n) :
    ∀ m ∈ n.nodes, m.WellFormed := by
  obtain ⟨span, span', hparts, hpredicate, hne, hbody⟩ := h
  rename_i parts predicate body
  rw [normal, normalAll_eq] at hn
  obtain ⟨-, hsome, hall, -⟩ := probe.inj hn
  have hpredicate' : ∀ p ∈ predicate.toList, IsExpression p ∧ p.normal = p := by
    intro p hp
    obtain rfl := Option.mem_toList.1 hp
    exact ⟨hpredicate p rfl, Option.some.inj hsome⟩
  have hspec : ∀ m ∈ (spec parts span).nodes, m.WellFormed :=
    forall_mem_nodes (.of_children hparts (by simp [children])) (by simp [children])
  apply forall_mem_nodes
  · apply WellFormed.of_children
    · exact ⟨rfl, hne, fun s hs => (hbody s hs).kind_mem⟩
    · refine List.forall_mem_cons.2
        ⟨by simp [kind], List.forall_mem_append.2 ⟨?_, fun s hs hk => ?_⟩⟩
      · exact fun p hp => (hpredicate' p hp).1.kind_ne
      · have hmem := (hbody s hs).kind_mem
        simp [hk] at hmem
  · refine List.forall_mem_cons.2 ⟨hspec, List.forall_mem_append.2 ⟨?_, fun s hs => ?_⟩⟩
    · exact fun p hp => (hpredicate' p hp).1.wellFormed (hpredicate' p hp).2
    · exact (hbody s hs).wellFormed (eq_of_map_eq hall s hs)

private theorem IsScript.wellFormed (h : IsScript n) (hn : n.normal = n) :
    ∀ m ∈ n.nodes, m.WellFormed := by
  obtain ⟨span, hne, hprobes⟩ := h
  rw [normal, normalAll_eq] at hn
  obtain ⟨hall, -⟩ := script.inj hn
  apply forall_mem_nodes
  · apply WellFormed.of_children
    · exact ⟨hne, fun p hp => (hprobes p hp).kind_eq⟩
    · intro p hp
      rw [(hprobes p hp).kind_eq]
      decide
  · exact fun p hp => (hprobes p hp).wellFormed (eq_of_map_eq hall p hp)

end ProbeScript.Node

namespace ProbeScript.Goal
open Node Phrase

theorem wellFormed_of_read {g : Goal} {source : Text} {n : Node} (h : g.read source = .ok n) :
    ∀ m ∈ n.nodes, m.WellFormed := by
  obtain ⟨hform, hnorm⟩ := form_of_read h
  cases g with
  | script => exact IsScript.wellFormed hform hnorm
  | expression => exact IsExpression.wellFormed hform hnorm

/-- Every node of a tree that was read is well formed, and the tree is no tuple. -/
theorem read_wellFormed (g : Goal) {source : Text} {n : Node} (h : g.read source = .ok n) :
    n.kind ≠ .tuple ∧ ∀ m ∈ n.nodes, m.WellFormed := by
  refine ⟨?_, wellFormed_of_read h⟩
  obtain ⟨hform, -⟩ := form_of_read h
  cases g with
  | script =>
    cases hform
    simp [kind]
  | expression => exact IsExpression.kind_ne hform

/-- Operators of two tiers, and a single value between parentheses as an argument. -/
theorem read_wellFormed_tuple : ∃ n, expression.read "a-f((x))*00".toList = .ok n ∧
    n.kind ≠ .tuple ∧ ∀ m ∈ n.nodes, m.WellFormed := by
  have hkept : Segment.Kept "a-f((x))*00".toList := .word (Text.forall_mem_of_all (by decide))
  let group : Operand := .group ⟨4, ['(']⟩ (.one (.value (.name ⟨5, ['x']⟩))) ⟨6, [')']⟩
  let call : Call := .applied ⟨2, ['f']⟩ ⟨3, ['(']⟩ (.one (.chain (.one group))) ⟨7, [')']⟩
  let difference : Chain := .more (.one (.value (.name ⟨0, ['a']⟩))) ⟨.subtract, 1⟩ (.call call)
  let zero : Operand := .value (.integer .octal ⟨9, ['0', '0']⟩)
  let d : expression.Phrase := .more difference ⟨.multiply, 8⟩ zero
  have hread : expression.initial.read 0 0 "a-f((x))*00".toList = .ok (expression.final d) := rfl
  obtain ⟨n, hn⟩ : ∃ n, expression.read "a-f((x))*00".toList = .ok n :=
    ⟨_, read_of_kept hkept hread rfl⟩
  exact ⟨n, hn, read_wellFormed expression hn⟩

end ProbeScript.Goal
