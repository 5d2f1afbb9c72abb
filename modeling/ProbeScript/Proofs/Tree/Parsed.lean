import ProbeScript.Proofs.Phrase.Scan
import ProbeScript.Proofs.Text.Digits
import ProbeScript.Proofs.Tree.Grouping
import ProbeScript.Proofs.Tree.Spec

/-! The trees of derivations. Each has a text, and is what this text is read into: the grammar and
the grouping of operands leave no parentheses to be made explicit. -/
namespace ProbeScript

theorem forall_of_mapM {ε α β : Type} {f : α → Except ε β} {P : β → Prop} {as : List α}
    {bs : List β} (h : as.mapM f = .ok bs) (hf : ∀ a ∈ as, ∀ b, f a = .ok b → P b) :
    bs.length = as.length ∧ ∀ b ∈ bs, P b := by
  have hall := mapM_eq_ok_iff.1 h
  refine ⟨hall.length_eq.symm, ?_⟩
  clear h
  induction hall with
  | nil => simp
  | @cons a b as bs hb _ ih =>
    obtain ⟨ha, has⟩ := List.forall_mem_cons.1 hf
    exact List.forall_mem_cons.2 ⟨ha b hb, ih has⟩

namespace Node
open Phrase (asArgument)

/-- An expression that is read again as it is and holds together more tightly than any operator. -/
structure IsOperand (n : Node) : Prop where
  isExpression : n.IsExpression
  normal_eq : n.normal = n
  tier_eq : n.tier = 5

/-- An argument that is read again as it is. -/
structure IsNormalArgument (n : Node) : Prop where
  isArgument : n.IsArgument
  normal_eq : asArgument n.normal = n

private theorem IsValue.isOperand {n : Node} (h : IsValue n) : IsOperand n :=
  ⟨.value h, h.normal_eq, h.tier_eq⟩

/-- A single value between parentheses becomes a tuple, and any other node stays as it is. -/
theorem asArgument_cases (n : Node) : asArgument n = n ∨
    ∃ v span, n = .parenthesized v span ∧ asArgument n = .tuple [v] span ∧
      v.kind ∈ [.identifier, .integer, .string] := by
  cases n with
  | parenthesized inner span =>
    cases inner
    case identifier | integer | string => exact .inr ⟨_, span, rfl, rfl, by simp [kind]⟩
    all_goals exact .inl rfl
  | _ => exact .inl rfl

private theorem IsExpression.isValue_of_kind {n : Node} (h : IsExpression n)
    (hk : n.kind ∈ [.identifier, .integer, .string]) : IsValue n := by
  cases h with
  | value h => exact h
  | _ => simp [kind] at hk

private theorem IsExpression.isNormalArgument {n : Node} (h : IsExpression n)
    (hnorm : n.normal = n) :
    IsNormalArgument (asArgument n) := by
  rcases asArgument_cases n with he | ⟨v, span, rfl, he, hk⟩
  · rw [he]
    exact ⟨.expression h, hnorm.symm ▸ he⟩
  · rw [he]
    have hv : IsValue v := by
      cases h with
      | value h => cases h
      | parenthesized _ h => exact h.isValue_of_kind hk
    exact ⟨.tuple _ (List.cons_ne_nil _ _) (List.forall_mem_singleton.2 hv), rfl⟩

end Node

open Node

private theorem Grouping.Ordered.node {g : Grouping Node} (h : g.Ordered IsOperand) :
    g.node.IsExpression ∧ g.node.normal = g.node ∧ g.node.tier = g.tier := by
  induction h with
  | operand h => exact ⟨h.isExpression, h.normal_eq, h.tier_eq⟩
  | @joined op left right _ _ hle hlt ihleft ihright =>
    obtain ⟨hleft, hleft', htier⟩ := ihleft
    obtain ⟨hright, hright', htier'⟩ := ihright
    refine ⟨.binary op _ hleft hright, ?_, rfl⟩
    rw [Grouping.node, normal, breaksLeft_eq, breaksRight_eq, htier, htier', hleft', hright',
      decide_eq_false (Nat.not_lt.2 hle), decide_eq_false (Nat.not_le.2 hlt)]
    rfl

namespace Phrase
variable {source : Text} {n : Node} {ns : List Node}

/-- A name followed by arguments that are read again as they are. -/
inductive IsCall : Node → Prop
  | intro {name : Text} {args : List Node} (span : Option Span) : Terminal.name.Spells name →
    (∀ a ∈ args, IsNormalArgument a) → IsCall (.call name args span)

private theorem normalArguments_eq_self (h : ∀ a ∈ ns, IsNormalArgument a) :
    normalArguments ns = ns := by
  rw [normalArguments_eq]
  exact (List.map_congr_left fun a ha => (h a ha).normal_eq).trans (List.map_id ns)

private theorem IsCall.isOperand (h : IsCall n) : IsOperand n := by
  obtain ⟨span, hname, hargs⟩ := h
  refine ⟨.call span hname fun a ha => (hargs a ha).isArgument, ?_, rfl⟩
  rw [normal, normalArguments_eq_self hargs]

private theorem Value.tree_isValue {v : Value} (h : v.token.Spelled) (hn : v.tree source = .ok n) :
    IsValue n := by
  rcases v with word | ⟨start, w⟩ | ⟨r, start, w⟩
  · obtain rfl := Except.ok.inj hn
    exact .identifier _ h
  · obtain rfl := Except.ok.inj hn
    obtain ⟨inner, hinner, rfl⟩ := Terminal.spells_string (show Terminal.string.Spells w from h)
    have htext : (('"' :: inner ++ ['"']).drop 1).dropLast = inner := by simp
    rw [htext]
    exact .string _ hinner
  · obtain ⟨ds, rfl, -, hall, -⟩ :=
      Terminal.spells_ofRadix (show (Terminal.ofRadix r).Spells w from h)
    obtain ⟨k, hread, rfl⟩ := Value.tree_integer_iff.1 hn
    rw [List.drop_left] at hread
    obtain ⟨rfl, hle⟩ := Radix.read_eq_ok_iff.1 hread
    refine .integer r _ fun hr => ?_
    obtain rfl := hr
    calc Radix.decimal.value ds < 10 ^ ds.length := Radix.value_lt hall
      _ ≤ 10 ^ Radix.digitLimit := Nat.pow_le_pow_right (by decide) (hle rfl)

private theorem Values.tree_isValue {vs : Values} (h : ∀ x ∈ vs.tokens, x.Spelled)
    (hn : vs.tree source = .ok ns) : ns ≠ [] ∧ ∀ n ∈ ns, IsValue n := by
  induction vs generalizing ns with
  | one v =>
    obtain ⟨n, hv, rfl⟩ := Values.tree_one_iff.1 hn
    have hvalue := v.tree_isValue (h _ List.mem_cons_self) hv
    exact ⟨List.cons_ne_nil _ _, List.forall_mem_singleton.2 hvalue⟩
  | more init comma last ih =>
    obtain ⟨hinit, hlast⟩ := List.forall_mem_append.1 h
    obtain ⟨ms, m, hms, hm, rfl⟩ := Values.tree_more_iff.1 hn
    have hvalue := Value.tree_isValue (hlast last.token (by simp)) hm
    refine ⟨by simp, List.forall_mem_append.2 ⟨(ih hinit hms).2, ?_⟩⟩
    exact List.forall_mem_singleton.2 hvalue

mutual

private theorem Operand.tree_isOperand : (o : Operand) → {n : Node} → (∀ x ∈ o.tokens, x.Spelled) →
    o.tree source = .ok n → IsOperand n
  | .value v, _, h, hn => (Value.tree_isValue (h v.token List.mem_cons_self) hn).isOperand
  | .group lpar inner rpar, n, h, hn => by
    obtain ⟨-, h⟩ := List.forall_mem_cons.1 h
    obtain ⟨hinner, -⟩ := List.forall_mem_append.1 h
    obtain ⟨g, hg, rfl⟩ := Operand.tree_group_iff.1 hn
    obtain ⟨hnode, hnorm, -⟩ := (inner.grouping_ordered hinner hg).node
    exact ⟨.parenthesized _ hnode, by rw [normal, hnorm], rfl⟩
  | .call c, _, h, hn => (c.tree_isCall h hn).isOperand

private theorem Chain.grouping_ordered :
    (c : Chain) → {g : Grouping Node} → (∀ x ∈ c.tokens, x.Spelled) →
    c.grouping source = .ok g → g.Ordered IsOperand
  | .one o, g, h, hg => by
    obtain ⟨n, hn, rfl⟩ := Chain.grouping_one_iff.1 hg
    exact .operand (o.tree_isOperand h hn)
  | .more init joint last, g, h, hg => by
    obtain ⟨hinit, hlast⟩ := List.forall_mem_append.1 h
    obtain ⟨-, hlast⟩ := List.forall_mem_cons.1 hlast
    obtain ⟨g', n, hg', hn, rfl⟩ := Chain.grouping_more_iff.1 hg
    exact (init.grouping_ordered hinit hg').attach (last.tree_isOperand hlast hn)

private theorem Call.tree_isCall : (c : Call) → {n : Node} → (∀ x ∈ c.tokens, x.Spelled) →
    c.tree source = .ok n → IsCall n
  | .bare name lpar rpar, n, h, hn => by
    obtain ⟨hname, -⟩ := List.forall_mem_cons.1 h
    obtain rfl := Except.ok.inj hn
    exact .intro _ hname (fun a ha => by cases ha)
  | .applied name lpar args rpar, n, h, hn => by
    obtain ⟨hname, h⟩ := List.forall_mem_cons.1 h
    obtain ⟨-, h⟩ := List.forall_mem_cons.1 h
    obtain ⟨hargs, -⟩ := List.forall_mem_append.1 h
    obtain ⟨ns, hns, rfl⟩ := Call.tree_applied_iff.1 hn
    exact .intro _ hname (args.tree_isNormalArgument hargs hns)

private theorem Args.tree_isNormalArgument : (as : Args) → {ns : List Node} →
    (∀ x ∈ as.tokens, x.Spelled) → as.tree source = .ok ns → ∀ n ∈ ns, IsNormalArgument n
  | .one a, ns, h, hns => by
    obtain ⟨n, hn, rfl⟩ := Args.tree_one_iff.1 hns
    exact List.forall_mem_singleton.2 (a.tree_isNormalArgument h hn)
  | .more init comma last, ns, h, hns => by
    obtain ⟨hinit, hlast⟩ := List.forall_mem_append.1 h
    obtain ⟨-, hlast⟩ := List.forall_mem_cons.1 hlast
    obtain ⟨ms, m, hms, hm, rfl⟩ := Args.tree_more_iff.1 hns
    refine List.forall_mem_append.2 ⟨init.tree_isNormalArgument hinit hms, ?_⟩
    exact List.forall_mem_singleton.2 (last.tree_isNormalArgument hlast hm)

private theorem Arg.tree_isNormalArgument : (a : Arg) → {n : Node} → (∀ x ∈ a.tokens, x.Spelled) →
    a.tree source = .ok n → IsNormalArgument n
  | .chain c, n, h, hn => by
    obtain ⟨g, hg, rfl⟩ := Arg.tree_chain_iff.1 hn
    obtain ⟨hnode, hnorm, -⟩ := (c.grouping_ordered h hg).node
    exact hnode.isNormalArgument hnorm
  | .tuple lpar init comma last rpar, n, h, hn => by
    obtain ⟨-, h⟩ := List.forall_mem_cons.1 h
    obtain ⟨hinit, hlast⟩ := List.forall_mem_append.1 h
    obtain ⟨ms, m, hms, hm, rfl⟩ := Arg.tree_tuple_iff.1 hn
    have hvalue := Value.tree_isValue (hlast last.token (by simp)) hm
    refine ⟨.tuple _ (by simp) (List.forall_mem_append.2 ⟨?_, ?_⟩), rfl⟩
    · exact (Values.tree_isValue hinit hms).2
    · exact List.forall_mem_singleton.2 hvalue

end

theorem Chain.tree_isExpression {c : Chain} (h : ∀ x ∈ c.tokens, x.Spelled)
    (hn : c.tree source = .ok n) : IsExpression n ∧ n.normal = n := by
  obtain ⟨g, hg, rfl⟩ := Chain.tree_iff.1 hn
  obtain ⟨hnode, hnorm, -⟩ := (c.grouping_ordered h hg).node
  exact ⟨hnode, hnorm⟩

private theorem Statement.tree_isStatement {s : Statement} (h : ∀ x ∈ s.tokens, x.Spelled)
    (hn : s.tree source = .ok n) : IsStatement n ∧ n.normal = n := by
  cases s with
  | assignment target equal value semicolon =>
    obtain ⟨htarget, h⟩ := List.forall_mem_cons.1 h
    obtain ⟨-, h⟩ := List.forall_mem_cons.1 h
    obtain ⟨hvalue, -⟩ := List.forall_mem_append.1 h
    obtain ⟨m, hm, rfl⟩ := Statement.tree_assignment_iff.1 hn
    obtain ⟨hexpression, hnorm⟩ := Chain.tree_isExpression hvalue hm
    exact ⟨.assignment _ _ htarget hexpression, by rw [normal, hnorm]⟩
  | call c semicolon =>
    obtain ⟨hc, -⟩ := List.forall_mem_append.1 h
    have hcall := c.tree_isCall hc hn
    have hnorm := hcall.isOperand.normal_eq
    obtain ⟨span, hname, hargs⟩ := hcall
    exact ⟨.call span hname fun a ha => (hargs a ha).isArgument, hnorm⟩

private theorem specNode_isSpec {spec : Lexeme} (hn : specNode source spec = .ok n) :
    ∃ parts span, n = .spec parts span ∧ IsSpec parts := by
  obtain ⟨parts, hparts, rfl⟩ := specNode_iff.1 hn
  exact ⟨parts, _, rfl, (ProbeSpec.split?_eq_some_iff.1 hparts).1⟩

/-- The predicate of a probe, if there is one. -/
private theorem guard_isExpression {g : Option Guard} {predicate : Option Node}
    (h : ∀ x ∈ g.elim [] Guard.tokens, x.Spelled)
    (hn : g.mapM (·.predicate.tree source) = .ok predicate) :
    (∀ p ∈ predicate, IsExpression p) ∧ normalSome predicate = predicate := by
  cases g with
  | none =>
    obtain rfl := Except.ok.inj hn
    exact ⟨fun p hp => (by cases hp), rfl⟩
  | some g =>
    obtain ⟨-, h⟩ := List.forall_mem_cons.1 h
    obtain ⟨hpredicate, -⟩ := List.forall_mem_append.1 h
    obtain ⟨p, hp, rfl⟩ := Guard.mapM_some_iff.1 hn
    obtain ⟨hexpression, hnorm⟩ := Chain.tree_isExpression hpredicate hp
    exact ⟨fun q hq => Option.some.inj hq ▸ hexpression, by rw [normalSome, hnorm]⟩

private theorem normalAll_eq_self (h : ∀ m ∈ ns, m.normal = m) : normalAll ns = ns := by
  rw [normalAll_eq]
  exact (List.map_congr_left h).trans (List.map_id ns)

private theorem Probe.tree_isProbe {p : Probe} (h : ∀ x ∈ p.tokens, x.Spelled)
    (hn : p.tree source = .ok n) : IsProbe n ∧ n.normal = n := by
  rw [Probe.tokens, List.append_assoc] at h
  obtain ⟨-, h⟩ := List.forall_mem_cons.1 h
  obtain ⟨hguard, h⟩ := List.forall_mem_append.1 h
  obtain ⟨-, h⟩ := List.forall_mem_cons.1 h
  obtain ⟨hbody, -⟩ := List.forall_mem_append.1 h
  rw [List.forall_mem_flatMap] at hbody
  obtain ⟨predicate, body, event, hpredicate, hstatements, hevent, rfl⟩ := Probe.tree_iff.1 hn
  obtain ⟨parts, span, rfl, hspec⟩ := specNode_isSpec hevent
  obtain ⟨hexpression, hsome⟩ := guard_isExpression hguard hpredicate
  obtain ⟨hlen, hall⟩ := forall_of_mapM hstatements fun s hs m hm =>
    Statement.tree_isStatement (hbody s hs) hm
  have hne : body ≠ [] := by
    rintro rfl
    cases hlen
  refine ⟨.intro _ _ hspec hexpression hne fun s hs => (hall s hs).1, ?_⟩
  rw [normal, hsome, normalAll_eq_self fun s hs => (hall s hs).2]

theorem Script.tree_isScript {s : Script} (h : ∀ x ∈ s.tokens, x.Spelled)
    (hn : s.tree source = .ok n) : IsScript n ∧ n.normal = n := by
  rw [Script.tokens, List.forall_mem_flatMap] at h
  obtain ⟨probes, hprobes, rfl⟩ := Script.tree_iff.1 hn
  obtain ⟨hlen, hall⟩ := forall_of_mapM hprobes fun p hp m hm => Probe.tree_isProbe (h p hp) hm
  have hne : probes ≠ [] := by
    rintro rfl
    cases hlen
  refine ⟨.intro _ hne fun p hp => (hall p hp).1, ?_⟩
  rw [normal, normalAll_eq_self fun p hp => (hall p hp).2]

end Phrase
end ProbeScript
