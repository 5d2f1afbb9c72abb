import ProbeScript.Proofs.Phrase.Alike
import ProbeScript.Proofs.Tree.PrintedScript

/-! Phrases of tokens that are alike. Wherever the tokens of a phrase are found again, and however
their numbers are spelled there, they make up a phrase with the same tree. -/
namespace ProbeScript

namespace Node

private theorem span_bare (n : Node) : n.bare.span = none := by cases n <;> rfl

end Node

namespace Grouping

/-- The grouping without any stretch of text. -/
def bare : Grouping Node → Grouping Node
  | operand n => operand n.bare
  | joined op left right => joined op left.bare right.bare

private theorem bare_attach (op : Operator) (n : Node) (g : Grouping Node) :
    (g.attach op n).bare = g.bare.attach op n.bare := by
  induction g with
  | operand => rfl
  | joined o left right _ ih =>
    by_cases h : o.tier < op.tier
    · rw [attach_of_lt h, bare, bare, attach_of_lt h, ih]
    · have hle : op.tier ≤ o.tier := Nat.not_lt.1 h
      have hle' : op.tier ≤ (joined o left.bare right.bare).tier := hle
      rw [attach_of_le (g := joined o left right) hle]
      exact (attach_of_le hle').symm

private theorem node_bare (g : Grouping Node) : g.bare.node = g.node.bare := by
  induction g with
  | operand => rfl
  | joined op left right ihleft ihright =>
    rw [bare, node, ihleft, ihright, Node.span_bare, node, Node.bare]
    rfl

end Grouping

namespace Phrase
open Node

variable {source : Text} {n : Node} {ns : List Node} {us : List Token} {x : Token}

private theorem Value.exists_alike {v : Value} (h : x.Alike v.token) (hn : v.tree source = .ok n) :
    ∃ v' : Value, v'.token = x ∧ Forms Value.tree n v' := by
  obtain ⟨l, rfl⟩ := h.exists_lexeme
  have htext := h.canonical_text
  cases v with
  | name word =>
    obtain rfl := Except.ok.inj hn
    refine ⟨.name l, rfl, fun source' => ⟨_, rfl, ?_⟩⟩
    rw [bare, bare, show l.text = word.text from htext]
  | string word =>
    obtain rfl := Except.ok.inj hn
    refine ⟨.string l, rfl, fun source' => ⟨_, rfl, ?_⟩⟩
    rw [bare, bare, show l.text = word.text from htext]
  | integer r word =>
    have hcanonical : r.canonical l.text = r.canonical word.text := by
      rw [← Terminal.canonical_ofRadix, ← Terminal.canonical_ofRadix]
      exact htext
    have hread : r.read (l.text.drop r.marker.length) = r.read (word.text.drop r.marker.length) :=
      Terminal.Spells.read_eq h.spelled h.spelled' hcanonical
    obtain ⟨k, hk, rfl⟩ := Value.tree_integer_iff.1 hn
    refine ⟨.integer r l, rfl, fun source' => ⟨.integer k r.base (l.span source'), ?_, rfl⟩⟩
    exact Value.tree_integer_iff.2 ⟨k, hread.trans hk, rfl⟩

private theorem Joint.exists_alike {j : Joint} (h : x.Alike j.token) :
    ∃ j' : Joint, j'.token = x ∧ j'.op = j.op := by
  obtain ⟨l, rfl⟩ := h.exists_lexeme
  refine ⟨⟨j.op, l.start⟩, ?_, rfl⟩
  have htext := h.canonical_text
  rw [Terminal.canonical_ofOperator, Terminal.canonical_ofOperator] at htext
  have hl : l = ⟨l.start, j.op.symbol⟩ := congrArg (Lexeme.mk l.start) htext
  exact congrArg (Token.mk (.ofOperator j.op)) hl.symm

private theorem Values.exists_alike {vs : Values} (h : Alike us vs.tokens)
    (hns : vs.tree source = .ok ns) :
    ∃ vs' : Values, vs'.tokens = us ∧ FormsAll Values.tree ns vs' := by
  induction vs generalizing us ns with
  | one v =>
    obtain ⟨n, hn, rfl⟩ := Values.tree_one_iff.1 hns
    obtain ⟨x, us, rfl, hx, h⟩ := h.cons_right
    obtain rfl := h.nil_right
    obtain ⟨v', rfl, hv⟩ := Value.exists_alike hx hn
    exact ⟨.one v', rfl, Listing.values.forms_one hv⟩
  | more init comma last ih =>
    obtain ⟨ms, m, hms, hm, rfl⟩ := Values.tree_more_iff.1 hns
    obtain ⟨us, vs, rfl, hinit, h⟩ := h.append_right
    obtain ⟨comma', vs, rfl, -, h⟩ := h.mark_right
    obtain ⟨x, vs, rfl, hx, h⟩ := h.cons_right
    obtain rfl := h.nil_right
    obtain ⟨init', rfl, hinit'⟩ := ih hinit hms
    obtain ⟨last', rfl, hlast'⟩ := Value.exists_alike hx hm
    exact ⟨.more init' comma' last', rfl, Listing.values.forms_more comma' hinit' hlast'⟩

mutual

private theorem Operand.exists_alike : (o : Operand) → {us : List Token} → {n : Node} →
    Alike us o.tokens → o.tree source = .ok n →
      ∃ o' : Operand, o'.tokens = us ∧ Forms Operand.tree n o'
  | .value v, us, n, h, hn => by
    obtain ⟨x, us, rfl, hx, h⟩ := Alike.cons_right h
    obtain rfl := h.nil_right
    obtain ⟨v', rfl, hv⟩ := Value.exists_alike hx hn
    exact ⟨.value v', rfl, hv⟩
  | .group lpar inner rpar, us, n, h, hn => by
    obtain ⟨g, hg, rfl⟩ := Operand.tree_group_iff.1 hn
    obtain ⟨lpar', us, rfl, -, h⟩ := Alike.mark_right h
    obtain ⟨vs, us, rfl, hinner, h⟩ := h.append_right
    obtain ⟨rpar', us, rfl, -, h⟩ := h.mark_right
    obtain rfl := h.nil_right
    obtain ⟨c, rfl, hc⟩ := inner.exists_alike hinner hg
    refine ⟨.group lpar' c rpar', rfl, fun source' => ?_⟩
    obtain ⟨g', hg', hbare⟩ := hc source'
    refine ⟨_, Operand.tree_group_iff.2 ⟨g', hg', rfl⟩, ?_⟩
    rw [bare, bare, ← Grouping.node_bare, hbare, Grouping.node_bare]
  | .call c, us, n, h, hn => by
    obtain ⟨c', rfl, hc⟩ := c.exists_alike h hn
    exact ⟨.call c', rfl, hc⟩

private theorem Chain.exists_alike : (c : Chain) → {us : List Token} → {g : Grouping Node} →
    Alike us c.tokens → c.grouping source = .ok g → ∃ c' : Chain, c'.tokens = us ∧
      ∀ source', ∃ g', c'.grouping source' = .ok g' ∧ g'.bare = g.bare
  | .one o, us, g, h, hg => by
    obtain ⟨n, hn, rfl⟩ := Chain.grouping_one_iff.1 hg
    obtain ⟨o', rfl, ho⟩ := o.exists_alike h hn
    refine ⟨.one o', rfl, fun source' => ?_⟩
    obtain ⟨m, hm, hbare⟩ := ho source'
    exact ⟨.operand m, Chain.grouping_one_iff.2 ⟨m, hm, rfl⟩, congrArg Grouping.operand hbare⟩
  | .more init joint last, us, g, h, hg => by
    obtain ⟨g₁, n, hg₁, hn, rfl⟩ := Chain.grouping_more_iff.1 hg
    obtain ⟨us, vs, rfl, hinit, h⟩ := Alike.append_right h
    obtain ⟨x, vs, rfl, hx, hlast⟩ := h.cons_right
    obtain ⟨init', rfl, hinit'⟩ := init.exists_alike hinit hg₁
    obtain ⟨joint', rfl, hop⟩ := Joint.exists_alike hx
    obtain ⟨last', rfl, hlast'⟩ := last.exists_alike hlast hn
    refine ⟨.more init' joint' last', rfl, fun source' => ?_⟩
    obtain ⟨g₂, hg₂, hbare⟩ := hinit' source'
    obtain ⟨m, hm, hbare'⟩ := hlast' source'
    refine ⟨_, Chain.grouping_more_iff.2 ⟨g₂, m, hg₂, hm, rfl⟩, ?_⟩
    rw [Grouping.bare_attach, Grouping.bare_attach, hbare, hbare', hop]

private theorem Call.exists_alike : (c : Call) → {us : List Token} → {n : Node} →
    Alike us c.tokens → c.tree source = .ok n →
      ∃ c' : Call, c'.tokens = us ∧ Forms Call.tree n c'
  | .bare name lpar rpar, us, n, h, hn => by
    obtain rfl := Except.ok.inj hn
    obtain ⟨name', us, rfl, hname, h⟩ := Alike.mark_right h
    obtain ⟨lpar', us, rfl, -, h⟩ := h.mark_right
    obtain ⟨rpar', us, rfl, -, h⟩ := h.mark_right
    obtain rfl := h.nil_right
    refine ⟨.bare name' lpar' rpar', rfl, fun source' => ⟨_, rfl, ?_⟩⟩
    rw [bare, show name'.text = name.text from hname, bare]
  | .applied name lpar args rpar, us, n, h, hn => by
    obtain ⟨ns, hns, rfl⟩ := Call.tree_applied_iff.1 hn
    obtain ⟨name', us, rfl, hname, h⟩ := Alike.mark_right h
    obtain ⟨lpar', us, rfl, -, h⟩ := h.mark_right
    obtain ⟨vs, us, rfl, hargs, h⟩ := h.append_right
    obtain ⟨rpar', us, rfl, -, h⟩ := h.mark_right
    obtain rfl := h.nil_right
    obtain ⟨args', rfl, hargs'⟩ := args.exists_alike hargs hns
    refine ⟨.applied name' lpar' args' rpar', rfl, fun source' => ?_⟩
    obtain ⟨ms, hms, hbare⟩ := hargs' source'
    refine ⟨_, Call.tree_applied_iff.2 ⟨ms, hms, rfl⟩, ?_⟩
    rw [bare, show name'.text = name.text from hname, hbare, bare]

private theorem Args.exists_alike : (as : Args) → {us : List Token} → {ns : List Node} →
    Alike us as.tokens → as.tree source = .ok ns →
      ∃ as' : Args, as'.tokens = us ∧ FormsAll Args.tree ns as'
  | .one a, us, ns, h, hns => by
    obtain ⟨n, hn, rfl⟩ := Args.tree_one_iff.1 hns
    obtain ⟨a', rfl, ha⟩ := a.exists_alike h hn
    exact ⟨.one a', rfl, Listing.args.forms_one ha⟩
  | .more init comma last, us, ns, h, hns => by
    obtain ⟨ms, m, hms, hm, rfl⟩ := Args.tree_more_iff.1 hns
    obtain ⟨us, vs, rfl, hinit, h⟩ := Alike.append_right h
    obtain ⟨comma', vs, rfl, -, hlast⟩ := h.mark_right
    obtain ⟨init', rfl, hinit'⟩ := init.exists_alike hinit hms
    obtain ⟨last', rfl, hlast'⟩ := last.exists_alike hlast hm
    exact ⟨.more init' comma' last', rfl, Listing.args.forms_more comma' hinit' hlast'⟩

private theorem Arg.exists_alike : (a : Arg) → {us : List Token} → {n : Node} →
    Alike us a.tokens → a.tree source = .ok n → ∃ a' : Arg, a'.tokens = us ∧ Forms Arg.tree n a'
  | .chain c, us, n, h, hn => by
    obtain ⟨g, hg, rfl⟩ := Arg.tree_chain_iff.1 hn
    obtain ⟨c', rfl, hc⟩ := c.exists_alike h hg
    refine ⟨.chain c', rfl, fun source' => ?_⟩
    obtain ⟨g', hg', hbare⟩ := hc source'
    refine ⟨_, Arg.tree_chain_iff.2 ⟨g', hg', rfl⟩, ?_⟩
    rw [bare_asArgument, ← Grouping.node_bare, hbare, Grouping.node_bare, bare_asArgument]
  | .tuple lpar init comma last rpar, us, n, h, hn => by
    obtain ⟨ms, m, hms, hm, rfl⟩ := Arg.tree_tuple_iff.1 hn
    obtain ⟨lpar', us, rfl, -, h⟩ := Alike.mark_right h
    obtain ⟨vs, us, rfl, hinit, h⟩ := h.append_right
    obtain ⟨comma', us, rfl, -, h⟩ := h.mark_right
    obtain ⟨x, us, rfl, hx, h⟩ := h.cons_right
    obtain ⟨rpar', us, rfl, -, h⟩ := h.mark_right
    obtain rfl := h.nil_right
    obtain ⟨init', rfl, hinit'⟩ := Values.exists_alike hinit hms
    obtain ⟨last', rfl, hlast'⟩ := Value.exists_alike hx hm
    refine ⟨.tuple lpar' init' comma' last' rpar', rfl, ?_⟩
    have hall := Listing.values.forms_more comma' hinit' hlast'
    exact Values.forms_argument hall lpar' rpar' _

end

theorem Chain.exists_alike_tree {c : Chain} (h : Alike us c.tokens)
    (hn : c.tree source = .ok n) : ∃ c' : Chain, c'.tokens = us ∧ Forms Chain.tree n c' := by
  obtain ⟨g, hg, rfl⟩ := Chain.tree_iff.1 hn
  obtain ⟨c', rfl, hc⟩ := c.exists_alike h hg
  refine ⟨c', rfl, fun source' => ?_⟩
  obtain ⟨g', hg', hbare⟩ := hc source'
  refine ⟨g'.node, Chain.tree_iff.2 ⟨g', hg', rfl⟩, ?_⟩
  rw [← Grouping.node_bare, hbare, Grouping.node_bare]

private theorem Statement.exists_alike {s : Statement} (h : Alike us s.tokens)
    (hn : s.tree source = .ok n) :
    ∃ s' : Statement, s'.tokens = us ∧ Forms Statement.tree n s' := by
  cases s with
  | assignment target equal value semicolon =>
    obtain ⟨m, hm, rfl⟩ := Statement.tree_assignment_iff.1 hn
    obtain ⟨target', us, rfl, htarget, h⟩ := h.mark_right
    obtain ⟨equal', us, rfl, -, h⟩ := h.mark_right
    obtain ⟨vs, us, rfl, hvalue, h⟩ := h.append_right
    obtain ⟨semicolon', us, rfl, -, h⟩ := h.mark_right
    obtain rfl := h.nil_right
    obtain ⟨c, rfl, hc⟩ := Chain.exists_alike_tree hvalue hm
    refine ⟨.assignment target' equal' c semicolon', rfl, ?_⟩
    rw [← show target'.text = target.text from htarget]
    exact Statement.forms_assignment hc _ _
  | call c semicolon =>
    obtain ⟨vs, us, rfl, hc, h⟩ := h.append_right
    obtain ⟨semicolon', us, rfl, -, h⟩ := h.mark_right
    obtain rfl := h.nil_right
    obtain ⟨c', rfl, hc'⟩ := c.exists_alike hc hn
    exact ⟨.call c' semicolon', rfl, hc'⟩

/-- Phrases one after the other, each of them found again. -/
private theorem exists_alike_of_mapM {α : Type} {tokens : α → List Token}
    {tree : Text → α → Fallible Node} {as : List α}
    (hall : ∀ a ∈ as, ∀ us n, Alike us (tokens a) → tree source a = .ok n →
      ∃ a', tokens a' = us ∧ Forms tree n a')
    (h : Alike us (as.flatMap tokens)) (hns : as.mapM (tree source) = .ok ns) :
    ∃ as' : List α, as'.flatMap tokens = us ∧ as'.length = as.length ∧
      List.Forall₂ (Forms tree) ns as' := by
  replace hns := mapM_eq_ok_iff.1 hns
  induction hns generalizing us with
  | nil =>
    obtain rfl := Alike.nil_right h
    exact ⟨[], rfl, rfl, .nil⟩
  | @cons a m as ms hm _ ih =>
    obtain ⟨ha, has⟩ := List.forall_mem_cons.1 hall
    rw [List.flatMap_cons] at h
    obtain ⟨us, vs, rfl, hu, hv⟩ := h.append_right
    obtain ⟨a', rfl, ha'⟩ := ha us m hu hm
    obtain ⟨as', rfl, hlen, has'⟩ := ih has hv
    exact ⟨a' :: as', List.flatMap_cons, congrArg (· + 1) hlen, .cons ha' has'⟩

private theorem Guard.exists_alike {g : Option Guard} {predicate : Option Node}
    (h : Alike us (g.elim [] Guard.tokens))
    (hn : g.mapM (·.predicate.tree source) = .ok predicate) :
    ∃ g' : Option Guard, g'.elim [] Guard.tokens = us ∧ ∀ source', ∃ q,
      g'.mapM (·.predicate.tree source') = .ok q ∧ bareSome q = bareSome predicate := by
  cases g with
  | none =>
    obtain rfl := Except.ok.inj hn
    obtain rfl := Alike.nil_right h
    exact ⟨none, rfl, fun source' => ⟨none, rfl, rfl⟩⟩
  | some g =>
    obtain ⟨p, hp, rfl⟩ := Guard.mapM_some_iff.1 hn
    obtain ⟨opening, us, rfl, -, h⟩ := Alike.mark_right h
    obtain ⟨vs, us, rfl, hpredicate, h⟩ := h.append_right
    obtain ⟨closing, us, rfl, -, h⟩ := h.mark_right
    obtain rfl := h.nil_right
    obtain ⟨c, rfl, hc⟩ := Chain.exists_alike_tree hpredicate hp
    refine ⟨some ⟨opening, c, closing⟩, rfl, fun source' => ?_⟩
    obtain ⟨m, hm, hbare⟩ := hc source'
    exact ⟨some m, Guard.mapM_some_iff.2 ⟨m, hm, rfl⟩, congrArg some hbare⟩

theorem Probe.exists_alike {p : Probe} (h : Alike us p.tokens) (hn : p.tree source = .ok n) :
    ∃ p' : Probe, p'.tokens = us ∧ Forms Probe.tree n p' := by
  obtain ⟨predicate, body, event, hpredicate, hbody, hevent, rfl⟩ := Probe.tree_iff.1 hn
  rw [Probe.tokens, List.append_assoc] at h
  obtain ⟨spec, us, rfl, hspec, h⟩ := Alike.mark_right h
  obtain ⟨us, vs, rfl, hguard, h⟩ := h.append_right
  obtain ⟨lbrace, vs, rfl, -, h⟩ := h.mark_right
  obtain ⟨vs, ws, rfl, hstatements, h⟩ := h.append_right
  obtain ⟨rbrace, ws, rfl, -, h⟩ := h.mark_right
  obtain rfl := h.nil_right
  obtain ⟨guard, rfl, hguard'⟩ := Guard.exists_alike hguard hpredicate
  obtain ⟨ss, rfl, hlen, hss⟩ := exists_alike_of_mapM
    (fun s _ us n => Statement.exists_alike) hstatements hbody
  obtain ⟨parts, hparts, rfl⟩ := specNode_iff.1 hevent
  have hspec' (source' : Text) : specNode source' spec = .ok (.spec parts (spec.span source')) := by
    rw [← show spec.text = p.spec.text from hspec] at hparts
    exact specNode_iff.2 ⟨parts, hparts, rfl⟩
  cases ss with
  | nil => cases hlen
  | cons s ss =>
    refine ⟨⟨spec, guard, lbrace, s, ss, rbrace⟩, ?_, ?_⟩
    · simp [Probe.tokens, Probe.statements]
    · exact Probe.forms _ _ (fun source' => ⟨_, hspec' source'⟩) hguard' hss

theorem Script.exists_alike {s : Script} (h : Alike us s.tokens) (hn : s.tree source = .ok n) :
    ∃ s' : Script, s'.tokens = us ∧ Forms Script.tree n s' := by
  obtain ⟨probes, hprobes, rfl⟩ := Script.tree_iff.1 hn
  obtain ⟨ps, rfl, hlen, hps⟩ := exists_alike_of_mapM (fun p _ us n => Probe.exists_alike) h hprobes
  cases ps with
  | nil => cases hlen
  | cons p ps => exact ⟨⟨p, ps⟩, rfl, Script.forms _ hps⟩

end Phrase
end ProbeScript
