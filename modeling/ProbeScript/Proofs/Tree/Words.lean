import ProbeScript.Proofs.Phrase.Alike
import ProbeScript.Proofs.Tree.Parsed
import ProbeScript.Proofs.Tree.Printed

/-! The words of a tree: those of every phrase that it is the tree of, from left to right. They are
found in the tree alone, whatever text it was read from. -/
namespace ProbeScript

namespace Node
open Phrase (Terminal)

/-- The words between parentheses. -/
def enclosed (ws : List (Terminal × Text)) : List (Terminal × Text) :=
  (.lpar, ['(']) :: ws ++ [(.rpar, [')'])]

/-- The words of a list, with commas between its items. -/
def listed (wss : List (List (Terminal × Text))) : List (Terminal × Text) :=
  List.intercalate [(.comma, [','])] wss

mutual

/-- The words that a tree is written with, without leading zeros and with the letters of numbers in
capitals. -/
def words : Node → List (Terminal × Text)
  | plain _ => []
  | identifier name _ => [(.name, name)]
  | integer value base _ =>
    [(.ofRadix (Numeral.radixOf base),
      (Numeral.radixOf base).canonical (Numeral.signed (Numeral.radixOf base) value))]
  | string value _ => [(.string, '"' :: value ++ ['"'])]
  | binary op left right _ => left.words ++ (.ofOperator op, op.symbol) :: right.words
  | parenthesized inner _ => enclosed inner.words
  | tuple values _ => enclosed (listed (wordsAll values))
  | call name args _ => (.name, name) :: enclosed (listed (wordsAll args))
  | assignment target value _ => target.words ++ (.equal, ['=']) :: value.words
  | spec parts _ => [(.probeSpec, specText parts)]
  | probe event predicate body _ =>
    event.words ++ (wordsSome predicate ++ (.lbrace, ['\x7b']) ::
      ((wordsAll body).flatMap (· ++ [(.semicolon, [';'])]) ++ [(.rbrace, ['\x7d'])]))
  | script probes _ => (wordsAll probes).flatten

def wordsAll : List Node → List (List (Terminal × Text))
  | [] => []
  | n :: ns => n.words :: wordsAll ns

/-- The words of a predicate between its slashes. -/
def wordsSome : Option Node → List (Terminal × Text)
  | none => []
  | some n => (.slash, ['/']) :: n.words ++ [(.slash, ['/'])]

end

mutual

theorem words_bare : (n : Node) → n.bare.words = n.words
  | .plain _ | .identifier .. | .integer .. | .string .. | .spec .. => rfl
  | .binary _ l r _ => by rw [bare, words, words_bare l, words_bare r, words]
  | .parenthesized i _ => by rw [bare, words, words_bare i, words]
  | .tuple vs _ => by rw [bare, words, wordsAll_bareAll vs, words]
  | .call _ vs _ => by rw [bare, words, wordsAll_bareAll vs, words]
  | .assignment t v _ => by rw [bare, words, words_bare t, words_bare v, words]
  | .probe e p vs _ => by
    rw [bare, words, words_bare e, wordsSome_bareSome p, wordsAll_bareAll vs, words]
  | .script vs _ => by rw [bare, words, wordsAll_bareAll vs, words]

private theorem wordsAll_bareAll : (ns : List Node) → wordsAll (bareAll ns) = wordsAll ns
  | [] => rfl
  | n :: ns => by rw [bareAll, wordsAll, words_bare n, wordsAll_bareAll ns, wordsAll]

private theorem wordsSome_bareSome : (n : Option Node) → wordsSome (bareSome n) = wordsSome n
  | none => rfl
  | some n => by rw [bareSome, wordsSome, words_bare n, wordsSome]

end

private theorem wordsAll_eq (ns : List Node) : wordsAll ns = ns.map words := by
  induction ns with
  | nil => rfl
  | cons n ns ih => rw [wordsAll, ih, List.map_cons]

/-- One more item comes after a comma, unless it is the first. -/
private theorem listed_append {ns : List Node} (hne : ns ≠ []) (n : Node) :
    listed (wordsAll (ns ++ [n])) = listed (wordsAll ns) ++ (.comma, [',']) :: n.words := by
  obtain ⟨m, ms, rfl⟩ := List.exists_cons_of_ne_nil hne
  simp [listed, wordsAll_eq, Phrase.intercalate_cons]

/-- A value keeps its words where it becomes a tuple. -/
private theorem words_asArgument (n : Node) : (Phrase.asArgument n).words = n.words := by
  rcases asArgument_cases n with he | ⟨v, span, rfl, he, -⟩
  · rw [he]
  · rw [he, words, words, wordsAll, wordsAll, listed, List.intercalate_singleton]

end Node

private theorem Grouping.words_attach (op : Operator) (n : Node) (g : Grouping Node) :
    (g.attach op n).node.words = g.node.words ++ (.ofOperator op, op.symbol) :: n.words := by
  induction g with
  | operand => rfl
  | joined o left right _ ih =>
    by_cases h : o.tier < op.tier
    · rw [attach_of_lt h, node, Node.words, ih, node, Node.words, List.append_assoc,
        List.cons_append]
    · have hle : op.tier ≤ (joined o left right).tier := Nat.not_lt.1 h
      rw [attach_of_le hle]
      rfl

namespace Phrase
open Node

variable {source : Text} {n : Node} {ns : List Node}

private theorem Token.canonical_mark {terminal : Terminal} {m : Char} {l : Lexeme}
    (h : Token.Spelled ⟨terminal, l⟩) (hm : terminal.punctuation? = some m) :
    Token.canonical ⟨terminal, l⟩ = (terminal, [m]) := by
  have hl : l.text = [m] := Terminal.spells_punctuation hm h
  rw [Token.canonical, hl]
  cases terminal <;> cases hm <;> rfl

private theorem Token.canonical_name (l : Lexeme) :
    Token.canonical ⟨.name, l⟩ = (.name, l.text) := rfl

private theorem Value.words_tree {v : Value} (h : v.token.Spelled) (hn : v.tree source = .ok n) :
    n.words = [v.token.canonical] := by
  rcases v with word | ⟨start, w⟩ | ⟨r, start, w⟩
  · obtain rfl := Except.ok.inj hn
    rfl
  · obtain rfl := Except.ok.inj hn
    obtain ⟨inner, -, rfl⟩ := Terminal.spells_string (show Terminal.string.Spells w from h)
    have htext : (('"' :: inner ++ ['"']).drop 1).dropLast = inner := by simp
    rw [words, htext]
    rfl
  · obtain ⟨ds, rfl, -, hall, -⟩ :=
      Terminal.spells_ofRadix (show (Terminal.ofRadix r).Spells w from h)
    obtain ⟨k, hread, rfl⟩ := Value.tree_integer_iff.1 hn
    rw [List.drop_left] at hread
    obtain ⟨rfl, -⟩ := Radix.read_eq_ok_iff.1 hread
    have hradix : Numeral.radixOf r.base = r := by cases r <;> rfl
    have hsignificant : Radix.significant (r.digits (r.value ds)) = Radix.significant ds :=
      (Radix.significant_eq_iff (r.isDigit_of_mem_digits _) hall).2 (r.value_digits _)
    rw [words, hradix, Numeral.signed_natCast, Radix.canonical, List.drop_left, hsignificant]
    simp [token, Token.canonical, Terminal.canonical_ofRadix, Radix.canonical]

private theorem Values.words_tree {vs : Values} (h : ∀ x ∈ vs.tokens, x.Spelled)
    (hns : vs.tree source = .ok ns) :
    ns ≠ [] ∧ listed (wordsAll ns) = vs.tokens.map Token.canonical := by
  induction vs generalizing ns with
  | one v =>
    obtain ⟨n, hn, rfl⟩ := Values.tree_one_iff.1 hns
    refine ⟨List.cons_ne_nil _ _, ?_⟩
    rw [wordsAll, wordsAll, listed, List.intercalate_singleton]
    exact Value.words_tree (h _ List.mem_cons_self) hn
  | more init comma last ih =>
    obtain ⟨ms, m, hms, hm, rfl⟩ := Values.tree_more_iff.1 hns
    obtain ⟨hinit, h⟩ := List.forall_mem_append.1 h
    obtain ⟨hcomma, h⟩ := List.forall_mem_cons.1 h
    obtain ⟨hne, hwords⟩ := ih hinit hms
    refine ⟨by simp, ?_⟩
    rw [listed_append hne, hwords, Value.words_tree (h _ List.mem_cons_self) hm, tokens,
      List.map_append, List.map_cons, Token.canonical_mark hcomma rfl]
    rfl

mutual

private theorem Operand.words_tree : (o : Operand) → {n : Node} → (∀ x ∈ o.tokens, x.Spelled) →
    o.tree source = .ok n → n.words = o.tokens.map Token.canonical
  | .value v, _, h, hn => Value.words_tree (h v.token List.mem_cons_self) hn
  | .group lpar inner rpar, n, h, hn => by
    obtain ⟨hlpar, h⟩ := List.forall_mem_cons.1 h
    obtain ⟨hinner, h⟩ := List.forall_mem_append.1 h
    obtain ⟨hrpar, -⟩ := List.forall_mem_cons.1 h
    obtain ⟨g, hg, rfl⟩ := Operand.tree_group_iff.1 hn
    rw [words, inner.words_grouping hinner hg]
    simp [enclosed, Operand.tokens, Token.canonical_mark hlpar rfl, Token.canonical_mark hrpar rfl]
  | .call c, _, h, hn => c.words_tree h hn

private theorem Chain.words_grouping :
    (c : Chain) → {g : Grouping Node} → (∀ x ∈ c.tokens, x.Spelled) →
    c.grouping source = .ok g → g.node.words = c.tokens.map Token.canonical
  | .one o, g, h, hg => by
    obtain ⟨n, hn, rfl⟩ := Chain.grouping_one_iff.1 hg
    exact o.words_tree h hn
  | .more init joint last, g, h, hg => by
    obtain ⟨hinit, hlast⟩ := List.forall_mem_append.1 h
    obtain ⟨-, hlast⟩ := List.forall_mem_cons.1 hlast
    obtain ⟨g', n, hg', hn, rfl⟩ := Chain.grouping_more_iff.1 hg
    rw [Grouping.words_attach, init.words_grouping hinit hg', last.words_tree hlast hn]
    simp [Chain.tokens, Joint.token, Token.canonical, Terminal.canonical_ofOperator]

private theorem Call.words_tree : (c : Call) → {n : Node} → (∀ x ∈ c.tokens, x.Spelled) →
    c.tree source = .ok n → n.words = c.tokens.map Token.canonical
  | .bare name lpar rpar, n, h, hn => by
    obtain ⟨-, h⟩ := List.forall_mem_cons.1 h
    obtain ⟨hlpar, h⟩ := List.forall_mem_cons.1 h
    obtain ⟨hrpar, -⟩ := List.forall_mem_cons.1 h
    obtain rfl := Except.ok.inj hn
    simp [words, wordsAll, listed, enclosed, Call.tokens, Token.canonical_name,
      Token.canonical_mark hlpar rfl, Token.canonical_mark hrpar rfl]
  | .applied name lpar args rpar, n, h, hn => by
    obtain ⟨-, h⟩ := List.forall_mem_cons.1 h
    obtain ⟨hlpar, h⟩ := List.forall_mem_cons.1 h
    obtain ⟨hargs, h⟩ := List.forall_mem_append.1 h
    obtain ⟨hrpar, -⟩ := List.forall_mem_cons.1 h
    obtain ⟨ns, hns, rfl⟩ := Call.tree_applied_iff.1 hn
    obtain ⟨-, hwords⟩ := args.words_tree hargs hns
    simp [words, enclosed, hwords, Call.tokens, Token.canonical_name,
      Token.canonical_mark hlpar rfl, Token.canonical_mark hrpar rfl]

private theorem Args.words_tree : (as : Args) → {ns : List Node} → (∀ x ∈ as.tokens, x.Spelled) →
    as.tree source = .ok ns → ns ≠ [] ∧ listed (wordsAll ns) = as.tokens.map Token.canonical
  | .one a, ns, h, hns => by
    obtain ⟨n, hn, rfl⟩ := Args.tree_one_iff.1 hns
    refine ⟨List.cons_ne_nil _ _, ?_⟩
    rw [wordsAll, wordsAll, listed, List.intercalate_singleton]
    exact a.words_tree h hn
  | .more init comma last, ns, h, hns => by
    obtain ⟨ms, m, hms, hm, rfl⟩ := Args.tree_more_iff.1 hns
    obtain ⟨hinit, h⟩ := List.forall_mem_append.1 h
    obtain ⟨hcomma, hlast⟩ := List.forall_mem_cons.1 h
    obtain ⟨hne, hwords⟩ := init.words_tree hinit hms
    refine ⟨by simp, ?_⟩
    rw [listed_append hne, hwords, last.words_tree hlast hm, Args.tokens, List.map_append,
      List.map_cons, Token.canonical_mark hcomma rfl]

private theorem Arg.words_tree : (a : Arg) → {n : Node} → (∀ x ∈ a.tokens, x.Spelled) →
    a.tree source = .ok n → n.words = a.tokens.map Token.canonical
  | .chain c, n, h, hn => by
    obtain ⟨g, hg, rfl⟩ := Arg.tree_chain_iff.1 hn
    rw [words_asArgument]
    exact c.words_grouping h hg
  | .tuple lpar init comma last rpar, n, h, hn => by
    obtain ⟨hlpar, h⟩ := List.forall_mem_cons.1 h
    obtain ⟨hinit, h⟩ := List.forall_mem_append.1 h
    obtain ⟨hcomma, h⟩ := List.forall_mem_cons.1 h
    obtain ⟨hlast, h⟩ := List.forall_mem_cons.1 h
    obtain ⟨hrpar, -⟩ := List.forall_mem_cons.1 h
    obtain ⟨ms, m, hms, hm, rfl⟩ := Arg.tree_tuple_iff.1 hn
    obtain ⟨hne, hwords⟩ := Values.words_tree hinit hms
    rw [words, listed_append hne, hwords, Value.words_tree hlast hm]
    simp [enclosed, Arg.tokens, Token.canonical_mark hlpar rfl, Token.canonical_mark hcomma rfl,
      Token.canonical_mark hrpar rfl]

end

theorem Chain.words_tree {c : Chain} (h : ∀ x ∈ c.tokens, x.Spelled)
    (hn : c.tree source = .ok n) : n.words = c.tokens.map Token.canonical := by
  obtain ⟨g, hg, rfl⟩ := Chain.tree_iff.1 hn
  exact c.words_grouping h hg

private theorem Statement.words_tree {s : Statement} (h : ∀ x ∈ s.tokens, x.Spelled)
    (hn : s.tree source = .ok n) :
    n.words ++ [(.semicolon, [';'])] = s.tokens.map Token.canonical := by
  cases s with
  | assignment target equal value semicolon =>
    obtain ⟨-, h⟩ := List.forall_mem_cons.1 h
    obtain ⟨hequal, h⟩ := List.forall_mem_cons.1 h
    obtain ⟨hvalue, h⟩ := List.forall_mem_append.1 h
    obtain ⟨hsemicolon, -⟩ := List.forall_mem_cons.1 h
    obtain ⟨m, hm, rfl⟩ := Statement.tree_assignment_iff.1 hn
    rw [words, Chain.words_tree hvalue hm]
    simp [words, tokens, Token.canonical_name, Token.canonical_mark hequal rfl,
      Token.canonical_mark hsemicolon rfl]
  | call c semicolon =>
    obtain ⟨hc, h⟩ := List.forall_mem_append.1 h
    obtain ⟨hsemicolon, -⟩ := List.forall_mem_cons.1 h
    rw [c.words_tree hc hn, tokens, List.map_append, List.map_singleton,
      Token.canonical_mark hsemicolon rfl]

/-- The words of phrases one after the other. -/
private theorem words_of_mapM {α : Type} {tokens : α → List Token} {tree : Text → α → Fallible Node}
    {as : List α} {f : List (Terminal × Text) → List (Terminal × Text)}
    (hall : ∀ a ∈ as, ∀ n, (∀ x ∈ tokens a, x.Spelled) → tree source a = .ok n →
      f n.words = (tokens a).map Token.canonical)
    (h : ∀ x ∈ as.flatMap tokens, x.Spelled) (hns : as.mapM (tree source) = .ok ns) :
    (wordsAll ns).flatMap f = (as.flatMap tokens).map Token.canonical := by
  replace hns := mapM_eq_ok_iff.1 hns
  induction hns with
  | nil => rfl
  | @cons a m as ms hm _ ih =>
    rw [List.flatMap_cons] at h
    obtain ⟨ha, has⟩ := List.forall_mem_append.1 h
    obtain ⟨hf, hall⟩ := List.forall_mem_cons.1 hall
    rw [wordsAll, List.flatMap_cons, ih hall has, hf m ha hm, List.flatMap_cons, List.map_append]

private theorem Guard.words_tree {g : Option Guard} {predicate : Option Node}
    (h : ∀ x ∈ g.elim [] Guard.tokens, x.Spelled)
    (hn : g.mapM (·.predicate.tree source) = .ok predicate) :
    wordsSome predicate = (g.elim [] Guard.tokens).map Token.canonical := by
  cases g with
  | none =>
    obtain rfl := Except.ok.inj hn
    rfl
  | some g =>
    obtain ⟨hopening, h⟩ := List.forall_mem_cons.1 h
    obtain ⟨hpredicate, h⟩ := List.forall_mem_append.1 h
    obtain ⟨hclosing, -⟩ := List.forall_mem_cons.1 h
    obtain ⟨p, hp, rfl⟩ := Guard.mapM_some_iff.1 hn
    rw [wordsSome, Chain.words_tree hpredicate hp]
    simp [tokens, Token.canonical_mark hopening rfl, Token.canonical_mark hclosing rfl]

private theorem Probe.words_tree {p : Probe} (h : ∀ x ∈ p.tokens, x.Spelled)
    (hn : p.tree source = .ok n) : n.words = p.tokens.map Token.canonical := by
  rw [Probe.tokens, List.append_assoc] at h
  obtain ⟨-, h⟩ := List.forall_mem_cons.1 h
  obtain ⟨hguard, h⟩ := List.forall_mem_append.1 h
  obtain ⟨hlbrace, h⟩ := List.forall_mem_cons.1 h
  obtain ⟨hbody, h⟩ := List.forall_mem_append.1 h
  obtain ⟨hrbrace, -⟩ := List.forall_mem_cons.1 h
  obtain ⟨predicate, body, event, hpredicate, hstatements, hevent, rfl⟩ := Probe.tree_iff.1 hn
  have hwords := words_of_mapM (f := (· ++ [(.semicolon, [';'])]))
    (fun s _ n => Statement.words_tree) hbody hstatements
  obtain ⟨parts, hparts, rfl⟩ := specNode_iff.1 hevent
  have hspec : (Node.spec parts (p.spec.span source)).words =
      [Token.canonical ⟨.probeSpec, p.spec⟩] := by
    rw [words, (ProbeSpec.split?_eq_some_iff.1 hparts).2]
    rfl
  rw [words, hspec, Guard.words_tree hguard hpredicate, hwords]
  simp [Probe.tokens, Token.canonical_mark hlbrace rfl, Token.canonical_mark hrbrace rfl]

theorem Script.words_tree {s : Script} (h : ∀ x ∈ s.tokens, x.Spelled)
    (hn : s.tree source = .ok n) : n.words = s.tokens.map Token.canonical := by
  obtain ⟨probes, hprobes, rfl⟩ := Script.tree_iff.1 hn
  have hwords := words_of_mapM (f := id) (fun p _ n => Probe.words_tree) h hprobes
  rwa [List.flatMap_id] at hwords

end Phrase
end ProbeScript
