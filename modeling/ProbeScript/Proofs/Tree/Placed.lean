import ProbeScript.Proofs.Tree.Nodes
import ProbeScript.Proofs.Tree.Parsed
import ProbeScript.Proofs.Tree.Printed

/-! Where the nodes of a tree stand. Each node is made of tokens that follow one another in the
text, and its stretch of text goes from the first of these to the last. -/
namespace ProbeScript.Phrase

open Node

variable {source : Text} {n m : Node} {ns : List Node} {ts us : List Token}

/-- The tokens that a node is made of, by the kind of the node. The semicolon after an assignment is
no part of it. -/
inductive Makes (source : Text) : List Token → Node → Prop
  | expression {c : Chain} {n : Node} : c.tree source = .ok n → Makes source c.tokens n
  | tuple {a : Arg} {values : List Node} {span : Option Span} :
      a.tree source = .ok (.tuple values span) → Makes source a.tokens (.tuple values span)
  | assignment {target equal : Lexeme} {c : Chain} {n : Node} :
      (∀ semicolon, (Statement.assignment target equal c semicolon).tree source = .ok n) →
        Makes source (⟨.name, target⟩ :: ⟨.equal, equal⟩ :: c.tokens) n
  | spec {l : Lexeme} {n : Node} : specNode source l = .ok n → Makes source [⟨.probeSpec, l⟩] n
  | probe {p : Probe} {n : Node} : p.tree source = .ok n → Makes source p.tokens n
  | script {s : Script} {n : Node} : s.tree source = .ok n → Makes source s.tokens n

/-- The stretch of text from the first token to the last. -/
def Spans (source : Text) (ts : List Token) (n : Node) : Prop :=
  ∃ x y, ts.head? = some x ∧ ts.getLast? = some y ∧ n.span = x.lexeme.through source y.lexeme

/-- Every node of the tree is made of tokens that stand one after the other among these. -/
def Within (source : Text) (ts : List Token) (n : Node) : Prop :=
  ∀ m ∈ n.nodes, ∃ us, us <:+: ts ∧ Spans source us m ∧ Makes source us m

/-- The tree takes up the tokens from the first to the last. -/
structure Placed (source : Text) (ts : List Token) (n : Node) : Prop where
  spans : Spans source ts n
  within : Within source ts n

private theorem Within.mono (h : Within source us n) (hsub : us <:+: ts) : Within source ts n := by
  intro m hm
  obtain ⟨vs, hvs, hm⟩ := h m hm
  exact ⟨vs, hvs.trans hsub, hm⟩

private theorem Within.of_mem (h : Within source ts n) (hm : m ∈ n.children) : Within source ts m :=
  fun k hk => h k (mem_nodes_iff.2 (.inr ⟨m, hm, hk⟩))

private theorem Placed.of_children (hspans : Spans source ts n) (hmakes : Makes source ts n)
    (hchildren : ∀ c ∈ n.children, Within source ts c) : Placed source ts n := by
  refine ⟨hspans, forall_mem_nodes ⟨ts, List.infix_refl ts, hspans, hmakes⟩ hchildren⟩

private theorem Makes.operand {o : Operand} (h : o.tree source = .ok n) : Makes source o.tokens n :=
  .expression (Chain.tree_one h)

/-- A value stands where its word does, and has no nodes below. -/
theorem Value.tree_leaf {v : Value} (hn : v.tree source = .ok n) :
    n.span = v.token.lexeme.span source ∧ n.children = [] := by
  rcases v with word | word | ⟨r, word⟩
  · obtain rfl := Except.ok.inj hn
    exact ⟨rfl, rfl⟩
  · obtain rfl := Except.ok.inj hn
    exact ⟨rfl, rfl⟩
  · obtain ⟨k, -, rfl⟩ := Value.tree_integer_iff.1 hn
    exact ⟨rfl, rfl⟩

theorem Value.placed {v : Value} (hn : v.tree source = .ok n) : Placed source [v.token] n := by
  have hmakes : Makes source [v.token] n := .operand (o := .value v) hn
  obtain ⟨hspan, hchildren⟩ := v.tree_leaf hn
  refine .of_children ⟨v.token, v.token, rfl, rfl, hspan⟩ hmakes ?_
  rw [hchildren]
  simp

theorem Lexeme.placed (l : Lexeme) :
    Placed source [⟨.name, l⟩] (.identifier l.text (l.span source)) :=
  Value.placed (v := .name l) rfl

private theorem Values.within {vs : Values} (hns : vs.tree source = .ok ns) :
    ∀ n ∈ ns, Within source vs.tokens n := by
  induction vs generalizing ns with
  | one v =>
    obtain ⟨n, hn, rfl⟩ := Values.tree_one_iff.1 hns
    exact List.forall_mem_singleton.2 (Value.placed hn).within
  | more init comma last ih =>
    obtain ⟨ms, m, hms, hm, rfl⟩ := Values.tree_more_iff.1 hns
    refine List.forall_mem_append.2 ⟨fun n hn => ?_, List.forall_mem_singleton.2 ?_⟩
    · exact (ih hms n hn).mono ⟨[], _, rfl⟩
    · exact (Value.placed hm).within.mono ⟨init.tokens ++ [⟨.comma, comma⟩], [], by simp [tokens]⟩

/-! Operands that are grouped. Each part of the grouping is that of a chain of its own. -/

inductive Chain.Grouped (source : Text) : Chain → Grouping Node → Prop
  | one {o : Operand} {n : Node} : o.tree source = .ok n → Placed source o.tokens n →
      Grouped source (.one o) (.operand n)
  | joined {c d : Chain} {j : Joint} {left right : Grouping Node} :
      (c.append j d).grouping source = .ok (.joined j.op left right) → Grouped source c left →
        Grouped source d right → Grouped source (c.append j d) (.joined j.op left right)

namespace Chain.Grouped
variable {c : Chain} {g : Grouping Node} {o : Operand}

/-- One more operand makes the chain at the right end longer that it is grouped into. -/
private theorem more (h : c.Grouped source g) (j : Joint) (hn : o.tree source = .ok n)
    (ho : Placed source o.tokens n) : (Chain.more c j o).Grouped source (g.attach j.op n) := by
  induction h with
  | @one o' n' hn' ho' =>
    refine .joined (c := .one o') (d := .one o) ?_ (.one hn' ho') (.one hn ho)
    exact Chain.grouping_more_iff.2 ⟨_, n, Chain.grouping_one_iff.2 ⟨n', hn', rfl⟩, hn, rfl⟩
  | @joined c d k left right hg hleft hright _ ih =>
    have hmore : (Chain.more (c.append k d) j o).grouping source =
        .ok ((Grouping.joined k.op left right).attach j.op n) :=
      Chain.grouping_more_iff.2 ⟨_, n, hg, hn, rfl⟩
    by_cases hop : k.op.tier < j.op.tier
    · rw [Grouping.attach_of_lt hop] at hmore ⊢
      exact .joined (d := .more d j o) hmore hleft ih
    · have hle : j.op.tier ≤ (Grouping.joined k.op left right).tier := Nat.not_lt.1 hop
      rw [Grouping.attach_of_le hle] at hmore ⊢
      exact .joined (d := .one o) hmore (.joined hg hleft hright) (.one hn ho)

/-- A node that joins two others goes from the first token of the one to the last of the other. -/
theorem placed (h : c.Grouped source g) : Placed source c.tokens g.node := by
  induction h with
  | one _ ho => exact ho
  | @joined c d j left right hg _ _ ihleft ihright =>
    obtain ⟨x, y, hx, hy, hleft⟩ := ihleft.spans
    obtain ⟨x', y', hx', hy', hright⟩ := ihright.spans
    have hmakes : Makes source (c.append j d).tokens (Grouping.joined j.op left right).node :=
      .expression (Chain.tree_iff.2 ⟨_, hg, rfl⟩)
    rw [Chain.tokens_append] at hmakes ⊢
    refine .of_children ⟨x, y', ?_, ?_, ?_⟩ hmakes ?_
    · rw [List.head?_append, hx]
      rfl
    · simp [List.getLast?_append, List.getLast?_cons, hy']
    · rw [Grouping.node, Node.span, hleft, hright]
      rfl
    · refine List.forall_mem_cons.2 ⟨?_, List.forall_mem_singleton.2 ?_⟩
      · exact ihleft.within.mono ⟨[], _, rfl⟩
      · exact ihright.within.mono ⟨c.tokens ++ [j.token], [], by simp⟩

end Chain.Grouped

mutual

private theorem Operand.placed : (o : Operand) → {n : Node} → o.tree source = .ok n →
    Placed source o.tokens n
  | .value v, _, hn => Value.placed hn
  | .group lpar inner rpar, n, hn => by
    have hmakes : Makes source (Operand.group lpar inner rpar).tokens n := .operand hn
    obtain ⟨g, hg, rfl⟩ := Operand.tree_group_iff.1 hn
    have hinner := (inner.grouped hg).placed.within.mono
      ⟨[⟨.lpar, lpar⟩], [⟨.rpar, rpar⟩], (rfl : _ = (Operand.group lpar inner rpar).tokens)⟩
    exact .of_children ⟨⟨.lpar, lpar⟩, ⟨.rpar, rpar⟩, rfl, List.getLast?_concat, rfl⟩ hmakes
      (List.forall_mem_singleton.2 hinner)
  | .call c, _, hn => c.placed hn

theorem Chain.grouped : (c : Chain) → {g : Grouping Node} → c.grouping source = .ok g →
    c.Grouped source g
  | .one o, g, hg => by
    obtain ⟨n, hn, rfl⟩ := Chain.grouping_one_iff.1 hg
    exact .one hn (o.placed hn)
  | .more init joint last, g, hg => by
    obtain ⟨g', n, hg', hn, rfl⟩ := Chain.grouping_more_iff.1 hg
    exact (init.grouped hg').more joint hn (last.placed hn)

private theorem Call.placed :
    (c : Call) → {n : Node} → c.tree source = .ok n → Placed source c.tokens n
  | .bare name lpar rpar, n, hn => by
    have hmakes : Makes source (Operand.call (.bare name lpar rpar)).tokens n := .operand hn
    obtain rfl := Except.ok.inj hn
    exact .of_children ⟨⟨.name, name⟩, ⟨.rpar, rpar⟩, rfl, rfl, rfl⟩ hmakes (by simp [children])
  | .applied name lpar args rpar, n, hn => by
    have hmakes : Makes source (Operand.call (.applied name lpar args rpar)).tokens n := .operand hn
    obtain ⟨ns, hns, rfl⟩ := Call.tree_applied_iff.1 hn
    refine .of_children ⟨⟨.name, name⟩, ⟨.rpar, rpar⟩, rfl, List.getLast?_concat, rfl⟩ hmakes
      fun a ha => ?_
    exact (args.within hns a ha).mono ⟨[⟨.name, name⟩, ⟨.lpar, lpar⟩], [⟨.rpar, rpar⟩], rfl⟩

private theorem Args.within : (as : Args) → {ns : List Node} → as.tree source = .ok ns →
    ∀ n ∈ ns, Within source as.tokens n
  | .one a, ns, hns => by
    obtain ⟨n, hn, rfl⟩ := Args.tree_one_iff.1 hns
    exact List.forall_mem_singleton.2 (a.placed hn).within
  | .more init comma last, ns, hns => by
    obtain ⟨ms, m, hms, hm, rfl⟩ := Args.tree_more_iff.1 hns
    refine List.forall_mem_append.2 ⟨fun n hn => ?_, List.forall_mem_singleton.2 ?_⟩
    · exact (init.within hms n hn).mono ⟨[], _, rfl⟩
    · exact (last.placed hm).within.mono
        ⟨init.tokens ++ [⟨.comma, comma⟩], [], by simp [Args.tokens]⟩

theorem Arg.placed : (a : Arg) → {n : Node} → a.tree source = .ok n → Placed source a.tokens n
  | .chain c, n, hn => by
    have htree := hn
    obtain ⟨g, hg, rfl⟩ := Arg.tree_chain_iff.1 hn
    have hplaced := (c.grouped hg).placed
    rcases asArgument_cases g.node with he | ⟨v, span, hv, he, -⟩
    · rw [he]
      exact hplaced
    · rw [he] at htree ⊢
      rw [hv] at hplaced
      refine .of_children hplaced.spans (.tuple htree) (List.forall_mem_singleton.2 ?_)
      exact hplaced.within.of_mem List.mem_cons_self
  | .tuple lpar init comma last rpar, n, hn => by
    have htree := hn
    obtain ⟨ms, m, hms, hm, rfl⟩ := Arg.tree_tuple_iff.1 hn
    have hlast : (Arg.tuple lpar init comma last rpar).tokens.getLast? = some ⟨.rpar, rpar⟩ := by
      simp [Arg.tokens, List.getLast?_cons]
    refine .of_children ⟨⟨.lpar, lpar⟩, ⟨.rpar, rpar⟩, rfl, hlast, rfl⟩ (.tuple htree) ?_
    refine List.forall_mem_append.2 ⟨fun n hn => ?_, List.forall_mem_singleton.2 ?_⟩
    · exact (Values.within hms n hn).mono ⟨[⟨.lpar, lpar⟩], _, rfl⟩
    · exact (Value.placed hm).within.mono
        ⟨⟨.lpar, lpar⟩ :: init.tokens ++ [⟨.comma, comma⟩], [⟨.rpar, rpar⟩], by simp [Arg.tokens]⟩

end

theorem Chain.placed {c : Chain} (hn : c.tree source = .ok n) : Placed source c.tokens n := by
  obtain ⟨g, hg, rfl⟩ := Chain.tree_iff.1 hn
  exact (c.grouped hg).placed

theorem Operand.getLast?_tokens (o : Operand) : ∃ x ∈ o.tokens.getLast?, x.lexeme = o.final := by
  cases o with
  | value v => exact ⟨v.token, rfl, rfl⟩
  | group lpar inner rpar => exact ⟨⟨.rpar, rpar⟩, List.getLast?_concat, rfl⟩
  | call c =>
    cases c with
    | bare name lpar rpar => exact ⟨⟨.rpar, rpar⟩, rfl, rfl⟩
    | applied name lpar args rpar => exact ⟨⟨.rpar, rpar⟩, List.getLast?_concat, rfl⟩

theorem Chain.getLast?_tokens (c : Chain) : ∃ x ∈ c.tokens.getLast?, x.lexeme = c.final := by
  cases c with
  | one o => exact o.getLast?_tokens
  | more init joint last =>
    obtain ⟨x, hx, he⟩ := last.getLast?_tokens
    refine ⟨x, ?_, he⟩
    simp [tokens, List.getLast?_append, List.getLast?_cons, Option.mem_def.1 hx]

theorem Statement.within {s : Statement} (hn : s.tree source = .ok n) :
    Within source s.tokens n := by
  cases s with
  | assignment target equal c semicolon =>
    have hmakes : Makes source (⟨.name, target⟩ :: ⟨.equal, equal⟩ :: c.tokens) n :=
      .assignment fun _ => hn
    obtain ⟨m, hm, rfl⟩ := Statement.tree_assignment_iff.1 hn
    obtain ⟨x, hx, hfinal⟩ := c.getLast?_tokens
    have hplaced : Placed source (⟨.name, target⟩ :: ⟨.equal, equal⟩ :: c.tokens)
        (.assignment (.identifier target.text (target.span source)) m
          (target.through source c.final)) := by
      refine .of_children ⟨⟨.name, target⟩, x, rfl, ?_, ?_⟩ hmakes ?_
      · simp [List.getLast?_cons, Option.mem_def.1 hx]
      · rw [Node.span, hfinal]
      · refine List.forall_mem_cons.2 ⟨?_, List.forall_mem_singleton.2 ?_⟩
        · exact target.placed.within.mono ⟨[], _, rfl⟩
        · exact (Chain.placed hm).within.mono
            ⟨[⟨.name, target⟩, ⟨.equal, equal⟩], [], by simp⟩
    exact hplaced.within.mono ⟨[], [⟨.semicolon, semicolon⟩], rfl⟩
  | call c semicolon => exact (c.placed hn).within.mono ⟨[], [⟨.semicolon, semicolon⟩], rfl⟩

private theorem infix_flatMap {α β : Type} {f : α → List β} {a : α} {as : List α} (h : a ∈ as) :
    f a <:+: as.flatMap f := by
  obtain ⟨bs, cs, rfl⟩ := List.append_of_mem h
  exact ⟨bs.flatMap f, cs.flatMap f, by simp⟩

private theorem Guard.within {g : Option Guard} {predicate : Option Node}
    (hn : g.mapM (·.predicate.tree source) = .ok predicate) :
    ∀ q ∈ predicate, Within source (g.elim [] Guard.tokens) q := by
  cases g with
  | none =>
    obtain rfl := Except.ok.inj hn
    intro q hq
    cases hq
  | some g =>
    obtain ⟨m, hm, rfl⟩ := Guard.mapM_some_iff.1 hn
    rintro q ⟨⟩
    exact (Chain.placed hm).within.mono ⟨[⟨.slash, g.opening⟩], [⟨.slash, g.closing⟩], rfl⟩

private theorem Probe.getLast?_tokens (p : Probe) : p.tokens.getLast? = some ⟨.rbrace, p.rbrace⟩ :=
  List.getLast?_concat

theorem specNode_placed {l : Lexeme} (hn : specNode source l = .ok n) :
    Placed source [⟨.probeSpec, l⟩] n := by
  have hmakes : Makes source [⟨.probeSpec, l⟩] n := .spec hn
  obtain ⟨parts, -, rfl⟩ := specNode_iff.1 hn
  exact .of_children ⟨_, _, rfl, rfl, rfl⟩ hmakes (by simp [children])

theorem Probe.placed {p : Probe} (hn : p.tree source = .ok n) : Placed source p.tokens n := by
  have hmakes : Makes source p.tokens n := .probe hn
  obtain ⟨predicate, body, event, hpredicate, hbody, hevent, rfl⟩ := Probe.tree_iff.1 hn
  have hspec : Within source p.tokens event := (specNode_placed hevent).within.mono ⟨[], _, rfl⟩
  have hguard : ∀ q ∈ predicate.toList, Within source p.tokens q := by
    intro q hq
    exact (Guard.within hpredicate q (Option.mem_toList.1 hq)).mono
      ⟨[⟨.probeSpec, p.spec⟩], _, by simp only [tokens, List.append_assoc]; rfl⟩
  have hstatements : ∀ m ∈ body, Within source p.tokens m := by
    refine (forall_of_mapM hbody fun s hs m hm => ?_).2
    have hsub : p.statements.flatMap Statement.tokens <:+: p.tokens :=
      ⟨⟨.probeSpec, p.spec⟩ :: p.guard.elim [] Guard.tokens ++ [⟨.lbrace, p.lbrace⟩],
        [⟨.rbrace, p.rbrace⟩], by simp [tokens]⟩
    exact (Statement.within hm).mono ((infix_flatMap hs).trans hsub)
  refine .of_children ⟨⟨.probeSpec, p.spec⟩, ⟨.rbrace, p.rbrace⟩, rfl, p.getLast?_tokens, rfl⟩
    hmakes ?_
  exact List.forall_mem_cons.2 ⟨hspec, List.forall_mem_append.2 ⟨hguard, hstatements⟩⟩

theorem Script.placed {s : Script} (hn : s.tree source = .ok n) : Placed source s.tokens n := by
  have hmakes : Makes source s.tokens n := .script hn
  obtain ⟨probes, hprobes, rfl⟩ := Script.tree_iff.1 hn
  have hlast : s.tokens.getLast? = some ⟨.rbrace, (s.others.getLastD s.first).rbrace⟩ := by
    rcases List.eq_nil_or_concat s.others with hothers | ⟨ps, p, hothers⟩
    · rw [tokens, Script.probes, hothers, List.flatMap_singleton]
      exact s.first.getLast?_tokens
    · rw [tokens, Script.probes, hothers, List.concat_eq_append, List.getLastD_concat,
        ← List.cons_append, List.flatMap_append, List.flatMap_singleton, List.getLast?_append,
        p.getLast?_tokens]
      rfl
  refine .of_children ⟨⟨.probeSpec, s.first.spec⟩, _, rfl, hlast, rfl⟩ hmakes ?_
  exact (forall_of_mapM hprobes fun p hp m hm =>
    (Probe.placed hm).within.mono (infix_flatMap hp)).2

end ProbeScript.Phrase
