import ProbeScript.Proofs.Text.Order
import ProbeScript.Proofs.Tree.Placed

/-! The children of a node stand within its stretch of text, one after the other. Each is made of
tokens of its own, and the tokens of a text ascend. -/
namespace ProbeScript
namespace Node

variable {k m n m' n' : Node}

/-- The one node ends before the other begins. -/
def Precedes (m n : Node) : Prop :=
  ∃ s t, m.span = some s ∧ n.span = some t ∧ s.first < t.first ∧ s.last ≤ t.first

/-- The one node stands in the stretch of text of the other. -/
def Inside (m n : Node) : Prop :=
  ∃ s t, m.span = some s ∧ n.span = some t ∧ t.first ≤ s.first ∧ s.last ≤ t.last

/-- The node has a stretch of text that is not empty, and its children stand in this stretch, from
left to right. -/
structure Nested (n : Node) : Prop where
  extended : ∃ s, n.span = some s ∧ s.first < s.last
  inside : ∀ c ∈ n.children, c.Inside n
  ordered : n.children.Pairwise Precedes

private theorem Nested.inside_self (h : n.Nested) : n.Inside n := by
  obtain ⟨s, hs, -⟩ := h.extended
  exact ⟨s, s, hs, hs, le_rfl, le_rfl⟩

private theorem Inside.trans (h : k.Inside m) (h' : m.Inside n) : k.Inside n := by
  obtain ⟨s, t, hs, ht, hfirst, hlast⟩ := h
  obtain ⟨t', u, ht', hu, hfirst', hlast'⟩ := h'
  obtain rfl := Option.some.inj (ht.symm.trans ht')
  exact ⟨s, u, hs, hu, hfirst'.trans hfirst, hlast.trans hlast'⟩

/-- What stands inside of nodes that precede one another does too. -/
theorem Precedes.inside (h : m.Precedes n) (hm : m'.Inside m) (hn : n'.Inside n)
    (hm' : m'.Nested) : m'.Precedes n' := by
  obtain ⟨s, t, hs, ht, -, hle⟩ := h
  obtain ⟨s', s₁, hs', hs₁, -, hlast⟩ := hm
  obtain ⟨t', t₁, ht', ht₁, hfirst, -⟩ := hn
  obtain ⟨s₂, hs₂, hlt⟩ := hm'.extended
  obtain rfl := Option.some.inj (hs.symm.trans hs₁)
  obtain rfl := Option.some.inj (ht.symm.trans ht₁)
  obtain rfl := Option.some.inj (hs'.symm.trans hs₂)
  have hbetween : s'.last ≤ t'.first := hlast.trans (hle.trans hfirst)
  exact ⟨s', t', hs', ht', hlt.trans_le hbetween, hbetween⟩

/-- In a tree of nested nodes, each stands inside of those above it. -/
theorem inside_of_mem_nodes {n : Node} (h : ∀ k ∈ n.nodes, k.Nested) :
    ∀ m ∈ n.nodes, m.Inside n := by
  intro m hm
  rcases mem_nodes_iff.1 hm with rfl | ⟨c, hc, hmem⟩
  · exact (h m hm).inside_self
  · have hchild : ∀ k ∈ c.nodes, k.Nested := fun k hk => h k (mem_nodes_iff.2 (.inr ⟨c, hc, hk⟩))
    exact (inside_of_mem_nodes hchild m hmem).trans ((h n n.self_mem_nodes).inside c hc)
termination_by sizeOf n
decreasing_by exact sizeOf_lt_of_mem_children hc

end Node

namespace Phrase
open Node

variable {source : Text} {m n : Node} {ms ns : List Node} {x y : Token} {ts us : List Token}

/-- Words that follow one another in a text of a length, none of them empty. -/
structure Ascending (length : Nat) (ts : List Token) : Prop where
  ordered : ts.Pairwise fun x y => x.lexeme.stop ≤ y.lexeme.start
  bounds : ∀ x ∈ ts, x.lexeme.start < x.lexeme.stop ∧ x.lexeme.stop ≤ length

private theorem Token.Spelled.start_lt_stop (h : x.Spelled) : x.lexeme.start < x.lexeme.stop := by
  have := List.length_pos_iff.2 (Terminal.Spells.ne_nil h)
  rw [Lexeme.stop]
  omega

private theorem Scans.ordered {i j : Nat} {t u : Text} (h : Scans i t ts j u) :
    ts.Pairwise fun x y => x.lexeme.stop ≤ y.lexeme.start := by
  induction h with
  | done => exact .nil
  | layout _ _ ih => exact ih
  | token _ hrest ih => exact .cons (fun y hy => (hrest.start_bounds y hy).1) ih

theorem Covers.ascending {text : Text} (h : Covers text ts) : Ascending text.length ts :=
  ⟨h.ordered, fun x hx => ⟨(h.spelled x hx).start_lt_stop, (h.start_bounds x hx).2⟩⟩

namespace Ascending
variable {length : Nat}

private theorem mono (h : Ascending length ts) (hsub : us.Sublist ts) : Ascending length us :=
  ⟨h.ordered.sublist hsub, fun x hx => h.bounds x (hsub.subset hx)⟩

private theorem start_le (h : Ascending length ts) (hx : ts.head? = some x) (hy : y ∈ ts) :
    x.lexeme.start ≤ y.lexeme.start := by
  obtain ⟨rest, rfl⟩ := List.head?_eq_some_iff.1 hx
  rcases List.mem_cons.1 hy with rfl | hy
  · exact le_rfl
  · have hle := (List.pairwise_cons.1 h.ordered).1 y hy
    have hlt := (h.bounds x List.mem_cons_self).1
    omega

private theorem le_stop (h : Ascending length ts) (hy : ts.getLast? = some y) (hx : x ∈ ts) :
    x.lexeme.stop ≤ y.lexeme.stop := by
  obtain ⟨init, rfl⟩ := List.getLast?_eq_some_iff.1 hy
  rcases List.mem_append.1 hx with hx | hx
  · have hle := (List.pairwise_append.1 h.ordered).2.2 x hx y List.mem_cons_self
    have hlt := (h.bounds y (List.mem_append_right _ List.mem_cons_self)).1
    omega
  · rw [List.mem_singleton.1 hx]

end Ascending

/-! Nodes made of ascending tokens. -/

private theorem Spans.extended (h : Spans source ts n) (hts : Ascending source.length ts) :
    ∃ s, n.span = some s ∧ s.first < s.last := by
  obtain ⟨x, y, hx, hy, hspan⟩ := h
  have hbounds := hts.bounds y (List.mem_of_getLast? hy)
  have hle := hts.start_le hx (List.mem_of_getLast? hy)
  exact ⟨_, hspan, Position.place_lt_place (by omega) hbounds.2⟩

private theorem Spans.inside (hm : Spans source us m) (hn : Spans source ts n) (hsub : us <:+: ts)
    (hts : Ascending source.length ts) : m.Inside n := by
  obtain ⟨x', y', hx', hy', hspan'⟩ := hm
  obtain ⟨x, y, hx, hy, hspan⟩ := hn
  have hmem := hsub.subset (List.mem_of_head? hx')
  have hstart := hts.start_le hx hmem
  have hstop := hts.le_stop hy (hsub.subset (List.mem_of_getLast? hy'))
  have hbefore := hts.bounds x' hmem
  have hafter := hts.bounds y (List.mem_of_getLast? hy)
  exact ⟨_, _, hspan', hspan, Position.place_le_place hstart (by omega),
    Position.place_le_place hstop hafter.2⟩

private theorem Spans.precedes (hm : Spans source us m) (hn : Spans source ts n)
    (h : Ascending source.length (us ++ ts)) : m.Precedes n := by
  obtain ⟨x, y, hx, hy, hspan⟩ := hm
  obtain ⟨x', y', hx', hy', hspan'⟩ := hn
  have hfirst := List.mem_of_head? hx'
  have hlast := List.mem_of_getLast? hy
  obtain ⟨-, -, hcross⟩ := List.pairwise_append.1 h.ordered
  have hle := hcross y hlast x' hfirst
  have hlt := hcross x (List.mem_of_head? hx) x' hfirst
  have hword := h.bounds x (List.mem_append_left _ (List.mem_of_head? hx))
  have hbounds := h.bounds x' (List.mem_append_right _ hfirst)
  exact ⟨_, _, hspan, hspan', Position.place_lt_place (by omega) (by omega),
    Position.place_le_place hle (by omega)⟩

/-- Each of the nodes is made of tokens of its own among these, and they follow one another as the
nodes do. -/
inductive Laid (source : Text) : List Token → List Node → Prop
  | nil (ts : List Token) : Laid source ts []
  | cons {before us rest : List Token} {n : Node} {ns : List Node} : Spans source us n →
      Laid source rest ns → Laid source (before ++ us ++ rest) (n :: ns)

namespace Laid

private theorem one (h : Spans source ts n) : Laid source ts [n] := by
  have hlaid : Laid source ([] ++ ts ++ []) [n] := .cons h (.nil [])
  rwa [List.nil_append, List.append_nil] at hlaid

private theorem of_within (h : Within source ts n) : Laid source ts [n] := by
  obtain ⟨us, ⟨before, rest, rfl⟩, hspans, -⟩ := h n n.self_mem_nodes
  exact .cons hspans (.nil rest)

private theorem after (h : Laid source ts ns) (us : List Token) : Laid source (us ++ ts) ns := by
  cases h with
  | nil => exact .nil _
  | @cons before vs rest n ns hn hns =>
    rw [← List.append_assoc, ← List.append_assoc]
    exact .cons hn hns

private theorem append (h : Laid source ts ns) (h' : Laid source us ms) :
    Laid source (ts ++ us) (ns ++ ms) := by
  induction h with
  | nil ts => exact h'.after ts
  | cons hn _ ih =>
    rw [List.append_assoc]
    exact .cons hn ih

private theorem before (h : Laid source ts ns) (us : List Token) : Laid source (ts ++ us) ns := by
  have hall := h.append (.nil us)
  rwa [List.append_nil] at hall

private theorem flatMap {α : Type} {tree : α → Fallible Node} {tokens : α → List Token}
    {as : List α} (hns : as.mapM tree = .ok ns)
    (h : ∀ a n, tree a = .ok n → Laid source (tokens a) [n]) :
    Laid source (as.flatMap tokens) ns := by
  induction mapM_eq_ok_iff.1 hns with
  | nil => exact .nil _
  | cons hn hrest ih => exact (h _ _ hn).append (ih (mapM_eq_ok_iff.2 hrest))

private theorem exists_spans (h : Laid source ts ns) :
    ∀ n ∈ ns, ∃ us, us <:+: ts ∧ Spans source us n := by
  induction h with
  | nil => simp
  | @cons before us rest n ns hn _ ih =>
    refine List.forall_mem_cons.2 ⟨⟨us, ⟨before, rest, rfl⟩, hn⟩, fun m hm => ?_⟩
    obtain ⟨vs, hvs, hm⟩ := ih m hm
    exact ⟨vs, hvs.trans (List.suffix_append _ _).isInfix, hm⟩

private theorem precedes (h : Laid source ts ns) (hts : Ascending source.length ts) :
    ns.Pairwise Precedes := by
  induction h with
  | nil => exact .nil
  | @cons before us rest n ns hn hns ih =>
    refine .cons (fun m hm => ?_) (ih (hts.mono (List.sublist_append_right _ _)))
    obtain ⟨vs, hvs, hm⟩ := hns.exists_spans m hm
    -- what stands between the two nodes, or before them, is of no account
    rw [List.append_assoc] at hts
    have hsub := (hvs.sublist.append_left us).trans (List.sublist_append_right before _)
    exact hn.precedes hm (hts.mono hsub)

end Laid

/-! The children of each kind of node. -/

private theorem Values.laid {vs : Values} (hns : vs.tree source = .ok ns) :
    Laid source vs.tokens ns := by
  induction vs generalizing ns with
  | one v =>
    obtain ⟨n, hn, rfl⟩ := Values.tree_one_iff.1 hns
    exact .one (Value.placed hn).spans
  | more init comma last ih =>
    obtain ⟨ms, m, hms, hm, rfl⟩ := Values.tree_more_iff.1 hns
    exact (ih hms).append ((Laid.one (Value.placed hm).spans).after [⟨.comma, comma⟩])

private theorem Args.laid (as : Args) {ns : List Node} (hns : as.tree source = .ok ns) :
    Laid source as.tokens ns := by
  cases as with
  | one a =>
    obtain ⟨n, hn, rfl⟩ := Args.tree_one_iff.1 hns
    exact .one (a.placed hn).spans
  | more init comma last =>
    obtain ⟨ms, m, hms, hm, rfl⟩ := Args.tree_more_iff.1 hns
    exact (init.laid hms).append ((Laid.one (last.placed hm).spans).after [⟨.comma, comma⟩])

private theorem Call.laid {c : Call} (hn : c.tree source = .ok n) :
    Laid source c.tokens n.children := by
  cases c with
  | bare name lpar rpar =>
    obtain rfl := Except.ok.inj hn
    exact .nil _
  | applied name lpar args rpar =>
    obtain ⟨ns, hns, rfl⟩ := Call.tree_applied_iff.1 hn
    exact ((args.laid hns).after [⟨.name, name⟩, ⟨.lpar, lpar⟩]).before [⟨.rpar, rpar⟩]

private theorem Operand.laid {o : Operand} (hn : o.tree source = .ok n) :
    Laid source o.tokens n.children := by
  cases o with
  | value v =>
    rw [(v.tree_leaf hn).2]
    exact .nil _
  | group lpar inner rpar =>
    obtain ⟨g, hg, rfl⟩ := Operand.tree_group_iff.1 hn
    have hinner := Laid.one (inner.grouped hg).placed.spans
    exact (hinner.after [⟨.lpar, lpar⟩]).before [⟨.rpar, rpar⟩]
  | call c => exact c.laid hn

private theorem Chain.laid {c : Chain} (hn : c.tree source = .ok n) :
    Laid source c.tokens n.children := by
  obtain ⟨g, hg, rfl⟩ := Chain.tree_iff.1 hn
  cases c.grouped hg with
  | one hoperand _ => exact Operand.laid hoperand
  | @joined c d j left right _ hleft hright =>
    -- each side of the operator is the node of a chain of its own
    rw [Chain.tokens_append]
    exact (Laid.one hleft.placed.spans).append ((Laid.one hright.placed.spans).after [j.token])

private theorem children_asArgument (n : Node) : (asArgument n).children = n.children := by
  rcases asArgument_cases n with he | ⟨v, span, rfl, he, -⟩
  · rw [he]
  · rw [he]
    rfl

private theorem Arg.laid {a : Arg} (hn : a.tree source = .ok n) :
    Laid source a.tokens n.children := by
  cases a with
  | chain c =>
    obtain ⟨g, hg, rfl⟩ := Arg.tree_chain_iff.1 hn
    rw [children_asArgument]
    exact Chain.laid (Chain.tree_iff.2 ⟨g, hg, rfl⟩)
  | tuple lpar init comma last rpar =>
    obtain ⟨ms, m, hms, hm, rfl⟩ := Arg.tree_tuple_iff.1 hn
    have hlast := (Laid.one (Value.placed hm).spans).after [⟨.comma, comma⟩]
    have hvalues := (((Values.laid hms).append hlast).after [⟨.lpar, lpar⟩]).before [⟨.rpar, rpar⟩]
    rwa [show (Arg.tuple lpar init comma last rpar).tokens =
      [⟨.lpar, lpar⟩] ++ (init.tokens ++ ([⟨.comma, comma⟩] ++ [last.token])) ++ [⟨.rpar, rpar⟩] by
        simp [Arg.tokens]]

private theorem Guard.laid {g : Option Guard} {predicate : Option Node}
    (hn : g.mapM (·.predicate.tree source) = .ok predicate) :
    Laid source (g.elim [] Guard.tokens) predicate.toList := by
  cases g with
  | none =>
    obtain rfl := Except.ok.inj hn
    exact .nil _
  | some g =>
    obtain ⟨m, hm, rfl⟩ := Guard.mapM_some_iff.1 hn
    have hpredicate := Laid.one (Chain.placed hm).spans
    exact (hpredicate.after [⟨.slash, g.opening⟩]).before [⟨.slash, g.closing⟩]

/-- The children of a node take up tokens among its own, from left to right. -/
private theorem Makes.laid (h : Makes source ts n) : Laid source ts n.children := by
  cases h with
  | expression hn => exact Chain.laid hn
  | tuple hn => exact Arg.laid hn
  | @assignment target equal c _ hn =>
    obtain ⟨m, hm, rfl⟩ := Statement.tree_assignment_iff.1 (hn ⟨0, []⟩)
    have hvalue := (Laid.one (Chain.placed hm).spans).after [⟨.equal, equal⟩]
    exact (Laid.one target.placed.spans).append hvalue
  | spec hn =>
    obtain ⟨parts, -, rfl⟩ := specNode_iff.1 hn
    exact .nil _
  | @probe p _ hn =>
    obtain ⟨predicate, body, event, hpredicate, hbody, hevent, rfl⟩ := Probe.tree_iff.1 hn
    have hstatements : Laid source (p.statements.flatMap Statement.tokens) body :=
      .flatMap hbody fun s m hm => .of_within (Statement.within hm)
    have hrest := (hstatements.after [⟨.lbrace, p.lbrace⟩]).before [⟨.rbrace, p.rbrace⟩]
    have hspec := Laid.one (specNode_placed hevent).spans
    have hall := hspec.append ((Guard.laid hpredicate).append hrest)
    rwa [show p.tokens = [⟨.probeSpec, p.spec⟩] ++ (p.guard.elim [] Guard.tokens ++
      ([⟨.lbrace, p.lbrace⟩] ++ p.statements.flatMap Statement.tokens ++ [⟨.rbrace, p.rbrace⟩])) by
        simp [Probe.tokens]]
  | script hn =>
    obtain ⟨probes, hprobes, rfl⟩ := Script.tree_iff.1 hn
    exact .flatMap hprobes fun p m hm => .one (Probe.placed hm).spans

/-- A node made of ascending tokens holds its children one after the other. -/
private theorem Makes.nested (h : Makes source ts n) (hspans : Spans source ts n)
    (hts : Ascending source.length ts) : n.Nested := by
  refine ⟨hspans.extended hts, fun c hc => ?_, h.laid.precedes hts⟩
  obtain ⟨us, hus, hc⟩ := h.laid.exists_spans c hc
  exact hc.inside hspans hus hts

theorem Within.nested (h : Within source ts n) (hts : Ascending source.length ts) :
    ∀ m ∈ n.nodes, m.Nested := by
  intro m hm
  obtain ⟨us, hus, hspans, hmakes⟩ := h m hm
  exact hmakes.nested hspans (hts.mono hus.sublist)

end Phrase
end ProbeScript
