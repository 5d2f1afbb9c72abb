import ProbeScript.Proofs.Tree.Nodes
import ProbeScript.Proofs.Tree.Parsed
import ProbeScript.Proofs.Tree.Regrouped

/-! The parentheses that printing adds to the operands of operators. The text without a pair of them
is a row of operands that does not stand for the tree: at the place of the pair the operators are
not ordered by tiers, or an operand further out is not the one that was meant. -/
namespace ProbeScript

open Node Phrase

/-- Printing puts an operand between parentheses: what the text of the tree is before them, between
them and after them. A tuple holds single values, so nothing is added in it. -/
inductive Node.Added : Node → Text → Text → Text → Prop
  | left {op : Operator} {left right : Node} {l r : Text} (span : Option Span) :
    breaksLeft op left = true → left.source = .ok l →
      (wrapped (breaksRight op right) right).source = .ok r →
      Added (.binary op left right span) [] l (' ' :: op.symbol ++ ' ' :: r)
  | right {op : Operator} {left right : Node} {l r : Text} (span : Option Span) :
    breaksRight op right = true → (wrapped (breaksLeft op left) left).source = .ok l →
      right.source = .ok r →
      Added (.binary op left right span) (l ++ ' ' :: op.symbol ++ [' ']) r []
  | inLeft {op : Operator} {left right : Node} {before inside after r : Text} (span : Option Span) :
    Added (wrapped (breaksLeft op left) left) before inside after →
      (wrapped (breaksRight op right) right).source = .ok r →
      Added (.binary op left right span) before inside (after ++ ' ' :: op.symbol ++ ' ' :: r)
  | inRight {op : Operator} {left right : Node} {l before inside after : Text}
    (span : Option Span) : (wrapped (breaksLeft op left) left).source = .ok l →
      Added (wrapped (breaksRight op right) right) before inside after →
      Added (.binary op left right span) (l ++ ' ' :: op.symbol ++ ' ' :: before) inside after
  | inParentheses {inner : Node} {before inside after : Text} (span : Option Span) :
    Added inner before inside after →
      Added (.parenthesized inner span) ('(' :: before) inside (after ++ [')'])
  | inArguments {arg : Node} {first others : List Node} {ts us : List Text}
    {before inside after : Text} (name : Text) (span : Option Span) :
    sources first = .ok ts → sources others = .ok us → Added arg before inside after →
      Added (.call name (first ++ arg :: others) span)
        (name ++ '(' :: ts.flatMap (· ++ ", ".toList) ++ before) inside
        (after ++ us.flatMap (", ".toList ++ ·) ++ [')'])

namespace Node

variable {n : Node} {before inside after t : Text}

private theorem source_wrapped_iff {needed : Bool} : (wrapped needed n).source = .ok t ↔
    ∃ u, n.source = .ok u ∧ t = parenthesesIf needed u := by
  cases needed with
  | false => exact ⟨fun h => ⟨t, h, rfl⟩, fun ⟨_, h, he⟩ => he ▸ h⟩
  | true => exact source_parenthesized_iff

private theorem IsExpression.wrapped (needed : Bool) (h : n.IsExpression) :
    (wrapped needed n).IsExpression := by
  cases needed with
  | false => exact h
  | true => exact .parenthesized none h

/-- An operator is written between its operands, these with the parentheses that they need. -/
private theorem source_binary_wrapped_iff {op : Operator} {left right : Node} {span : Option Span} :
    (binary op left right span).source = .ok t ↔ ∃ l r,
      (Node.wrapped (breaksLeft op left) left).source = .ok l ∧
      (Node.wrapped (breaksRight op right) right).source = .ok r ∧
      t = l ++ ' ' :: op.symbol ++ ' ' :: r := by
  simp only [source_binary_iff, source_wrapped_iff]
  constructor
  · rintro ⟨l, r, hl, hr, rfl⟩
    exact ⟨_, _, ⟨l, hl, rfl⟩, ⟨r, hr, rfl⟩, rfl⟩
  · rintro ⟨_, _, ⟨l, hl, rfl⟩, ⟨r, hr, rfl⟩, rfl⟩
    exact ⟨l, r, hl, hr, rfl⟩

private theorem intercalate_append_cons (sep t : Text) (ts us : List Text) :
    List.intercalate sep (ts ++ t :: us) =
      ts.flatMap (· ++ sep) ++ t ++ us.flatMap (sep ++ ·) := by
  induction ts with
  | nil => exact intercalate_cons sep t us
  | cons a ts ih =>
    obtain ⟨b, bs, hb⟩ := List.exists_cons_of_ne_nil (List.append_ne_nil_of_right_ne_nil ts
      (List.cons_ne_nil t us))
    rw [List.cons_append, hb, List.intercalate_cons_cons, ← hb, ih, List.flatMap_cons]
    simp only [List.append_assoc]

private theorem source_call_append_cons {first others : List Node} {ts us : List Text} (name : Text)
    (span : Option Span) (hfirst : sources first = .ok ts) (hothers : sources others = .ok us)
    (ht : n.source = .ok t) : (call name (first ++ n :: others) span).source =
      .ok (name ++ '(' :: ts.flatMap (· ++ ", ".toList) ++ t ++ us.flatMap (", ".toList ++ ·) ++
        [')']) := by
  have hall : sources (first ++ n :: others) = .ok (ts ++ t :: us) :=
    sources_eq_ok_iff.2 (List.rel_append (sources_eq_ok_iff.1 hfirst)
      (.cons ht (sources_eq_ok_iff.1 hothers)))
  rw [source_call_iff.2 ⟨_, hall, rfl⟩, listText, intercalate_append_cons]
  simp only [List.append_assoc, List.cons_append]

/-- The pair stands in the text of the tree. -/
theorem Added.source_eq (h : Added n before inside after) :
    n.source = .ok (before ++ '(' :: inside ++ ')' :: after) := by
  induction h with
  | left span hbreaks hl hr =>
    refine source_binary_wrapped_iff.2 ⟨_, _, source_wrapped_iff.2 ⟨_, hl, rfl⟩, hr, ?_⟩
    rw [hbreaks]
    simp [parenthesesIf]
  | right span hbreaks hl hr =>
    refine source_binary_wrapped_iff.2 ⟨_, _, hl, source_wrapped_iff.2 ⟨_, hr, rfl⟩, ?_⟩
    rw [hbreaks]
    simp [parenthesesIf]
  | inLeft span _ hr ih =>
    refine source_binary_wrapped_iff.2 ⟨_, _, ih, hr, ?_⟩
    simp
  | inRight span hl _ ih =>
    refine source_binary_wrapped_iff.2 ⟨_, _, hl, ih, ?_⟩
    simp
  | inParentheses span _ ih =>
    refine source_parenthesized_iff.2 ⟨_, ih, ?_⟩
    simp [parenthesesIf]
  | inArguments name span hfirst hothers _ ih =>
    rw [source_call_append_cons name span hfirst hothers ih]
    simp

/-- A pair is added at an operator. -/
theorem Added.exists_binary (h : Added n before inside after) : ∃ op left right span,
    binary op left right span ∈ n.nodes ∧
      (breaksLeft op left = true ∨ breaksRight op right = true) := by
  -- the operator stands at the node itself or in the child that the pair is in
  have hchild {n c : Node} (hc : c ∈ n.children) (h : ∃ op left right span,
      binary op left right span ∈ c.nodes ∧
        (breaksLeft op left = true ∨ breaksRight op right = true)) : ∃ op left right span,
      binary op left right span ∈ n.nodes ∧
        (breaksLeft op left = true ∨ breaksRight op right = true) := by
    obtain ⟨op, left, right, span, hmem, hbreaks⟩ := h
    exact ⟨op, left, right, span, mem_nodes_iff.2 (.inr ⟨c, hc, hmem⟩), hbreaks⟩
  induction h with
  | left span hbreaks => exact ⟨_, _, _, span, self_mem_nodes _, .inl hbreaks⟩
  | right span hbreaks => exact ⟨_, _, _, span, self_mem_nodes _, .inr hbreaks⟩
  | @inLeft op left right _ _ _ _ span _ _ ih =>
    cases hbreaks : breaksLeft op left with
    | true => exact ⟨op, left, right, span, self_mem_nodes _, .inl hbreaks⟩
    | false =>
      rw [hbreaks] at ih
      exact hchild List.mem_cons_self ih
  | @inRight op left right _ _ _ _ span _ _ ih =>
    cases hbreaks : breaksRight op right with
    | true => exact ⟨op, left, right, span, self_mem_nodes _, .inr hbreaks⟩
    | false =>
      rw [hbreaks] at ih
      exact hchild (List.mem_cons_of_mem _ List.mem_cons_self) ih
  | inParentheses span _ ih => exact hchild List.mem_cons_self ih
  | inArguments name span _ _ _ ih => exact hchild (List.mem_append_right _ List.mem_cons_self) ih

/-- The operands of the row are those that the text of the tree consists of. -/
structure Lays (g : Grouping Slot) (n : Node) : Prop where
  source_eq : n.source = .ok g.line
  core_eq : g.meant.core = n.core
  tier_eq : g.tier = n.tier

private theorem exists_lays_operand (h : n.IsExpression) (htier : n.tier = 5) : ∃ g, Lays g n := by
  obtain ⟨t, ht, -⟩ := expression_written h
  exact ⟨.operand ⟨n, n, t, h, htier, ht, rfl⟩, ht, rfl, htier.symm⟩

private theorem exists_lays_wrapped (needed : Bool) (h : n.IsExpression) (hn : ∃ g, Lays g n) :
    ∃ g, Lays g (Node.wrapped needed n) := by
  cases needed with
  | false => exact hn
  | true => exact exists_lays_operand (.parenthesized none h) rfl

private theorem IsExpression.of_binary {op : Operator} {left right : Node} {span : Option Span}
    (h : IsExpression (.binary op left right span)) : left.IsExpression ∧ right.IsExpression := by
  cases h with
  | value h => cases h
  | binary _ _ hleft hright => exact ⟨hleft, hright⟩

private theorem exists_lays : (n : Node) → n.IsExpression → ∃ g, Lays g n
  | .binary op left right _, h => by
    obtain ⟨hleft, hright⟩ := h.of_binary
    obtain ⟨l, hl⟩ := exists_lays_wrapped (breaksLeft op left) hleft (exists_lays left hleft)
    obtain ⟨r, hr⟩ := exists_lays_wrapped (breaksRight op right) hright (exists_lays right hright)
    refine ⟨.joined op l r, ?_, ?_, rfl⟩
    · exact source_binary_wrapped_iff.2 ⟨_, _, hl.source_eq, hr.source_eq, rfl⟩
    · rw [Grouping.meant, core_binary, hl.core_eq, hr.core_eq, core_wrapped, core_wrapped,
        core_binary]
  | .plain _, h | .identifier .., h | .integer .., h | .string .., h | .parenthesized .., h
  | .tuple .., h | .call .., h | .assignment .., h | .spec .., h | .probe .., h | .script .., h =>
    exists_lays_operand h rfl

private theorem exists_lays_of_source (h : n.IsExpression) (ht : n.source = .ok t) :
    ∃ g, Grouping.line g = t ∧ Lays g n := by
  obtain ⟨g, hg⟩ := exists_lays n h
  exact ⟨g, Except.ok.inj (hg.source_eq.symm.trans ht), hg⟩

/-- The text is that of a row of operands that does not stand for the tree. -/
def Spoils (t : Text) (n : Node) : Prop :=
  ∃ g : Grouping Slot, g.line = t ∧ g.meant.core = n.core ∧ ¬ g.Ordered Slot.Faithful

namespace Spoils

/-- The tree that the text is read into instead. -/
theorem exists_read (h : Spoils t n) : ∃ m : Node, m.IsExpression ∧ m.source = .ok t ∧
    m.weight = n.weight ∧ m.normal.core ≠ n.core := by
  obtain ⟨g, rfl, hcore, hg⟩ := h
  obtain ⟨m, hm, hsource, hweight, hne⟩ := g.exists_regrouped hg
  refine ⟨m, hm, hsource, ?_, hcore ▸ hne⟩
  rw [hweight, ← weight_core, hcore, weight_core]

/-- An operand that is not read as the part that it stands for. -/
private theorem operand {m : Node} (hm : m.IsExpression) (htier : m.tier = 5)
    (ht : m.source = .ok t) (hweight : m.weight = n.weight) (hne : m.normal.core ≠ n.core) :
    Spoils t n := by
  refine ⟨.operand ⟨m, n, t, hm, htier, ht, hweight⟩, rfl, rfl, ?_⟩
  rintro ⟨hfaithful⟩
  exact hne hfaithful

section
variable {op : Operator} {left right : Node} {l r : Grouping Slot}

private theorem binary (hl : l.meant.core = left.core) (hr : r.meant.core = right.core)
    (span : Option Span) (h : ¬ (Grouping.joined op l r).Ordered Slot.Faithful) :
    Spoils (l.line ++ ' ' :: op.symbol ++ ' ' :: r.line) (.binary op left right span) := by
  refine ⟨.joined op l r, rfl, ?_, h⟩
  rw [Grouping.meant, core_binary, core_binary, hl, hr]

/-- Where one operand is spoilt the other does not help. -/
private theorem inLeft (h : Spoils t (wrapped (breaksLeft op left) left))
    (hr : Lays r (wrapped (breaksRight op right) right)) (span : Option Span) :
    Spoils (t ++ ' ' :: op.symbol ++ ' ' :: r.line) (.binary op left right span) := by
  obtain ⟨l, rfl, hcore, hl⟩ := h
  refine binary (hcore.trans (core_wrapped _ _)) (hr.core_eq.trans (core_wrapped _ _)) span ?_
  rintro (_ | ⟨hordered, -, -, -⟩)
  exact hl hordered

private theorem inRight (hl : Lays l (wrapped (breaksLeft op left) left))
    (h : Spoils t (wrapped (breaksRight op right) right)) (span : Option Span) :
    Spoils (l.line ++ ' ' :: op.symbol ++ ' ' :: t) (.binary op left right span) := by
  obtain ⟨r, rfl, hcore, hr⟩ := h
  refine binary (hl.core_eq.trans (core_wrapped _ _)) (hcore.trans (core_wrapped _ _)) span ?_
  rintro (_ | ⟨-, hordered, -, -⟩)
  exact hr hordered

end

private theorem inParentheses (h : Spoils t n) (span : Option Span) :
    Spoils ('(' :: t ++ [')']) (.parenthesized n span) := by
  obtain ⟨m, hm, hsource, hweight, hne⟩ := h.exists_read
  have hsource' : (parenthesized m none).source = .ok (parenthesesIf true t) :=
    source_parenthesized_iff.2 ⟨t, hsource, rfl⟩
  exact operand (.parenthesized none hm) rfl hsource' hweight hne

/-- What is spoilt is not mended by being read as an argument. -/
private theorem inArguments {name : Text} {first others : List Node} {ts us : List Text}
    {span : Option Span} (h : Spoils t n) (hn : n.IsExpression)
    (hcall : IsExpression (.call name (first ++ n :: others) span))
    (hfirst : sources first = .ok ts) (hothers : sources others = .ok us) :
    Spoils (name ++ '(' :: ts.flatMap (· ++ ", ".toList) ++ t ++
      us.flatMap (", ".toList ++ ·) ++ [')']) (.call name (first ++ n :: others) span) := by
  obtain ⟨m, hm, hsource, -, hne⟩ := h.exists_read
  have hm' : IsExpression (.call name (first ++ m :: others) span) := by
    cases hcall with
    | value h => cases h
    | call _ hname hargs =>
      obtain ⟨hleft, hright⟩ := List.forall_mem_append.1 hargs
      exact .call span hname (List.forall_mem_append.2
        ⟨hleft, List.forall_mem_cons.2 ⟨.expression hm, (List.forall_mem_cons.1 hright).2⟩⟩)
  refine operand hm' rfl (source_call_append_cons name span hfirst hothers hsource) rfl ?_
  intro hcore
  rw [core_normal_call, core_call, List.map_append, List.map_append] at hcore
  obtain ⟨-, hargs, -⟩ := Node.call.inj hcore
  obtain ⟨-, hargs⟩ := List.append_inj hargs (by rw [List.length_map, List.length_map])
  have harg : (asArgument m.normal).core = n.core := (List.cons.inj hargs).1
  rcases asArgument_cases m.normal with he | ⟨v, s, -, he, -⟩
  · exact hne (he ▸ harg)
  · rw [he] at harg
    exact hn.core_ne_tuple _ _ harg.symm

end Spoils

/-- Without the pair the text does not stand for the tree. -/
theorem Added.spoils (h : Added n before inside after) (hn : n.IsExpression) :
    Spoils (before ++ inside ++ after) n := by
  induction h with
  | @left op left right l r span hbreaks hl hr =>
    obtain ⟨hleft, hright⟩ := hn.of_binary
    obtain ⟨g, rfl, hg⟩ := exists_lays_of_source hleft hl
    obtain ⟨g', rfl, hg'⟩ := exists_lays_of_source (hright.wrapped _) hr
    have hcore := hg'.core_eq.trans (core_wrapped _ _)
    have hspoils : Spoils (g.line ++ ' ' :: op.symbol ++ ' ' :: g'.line) _ :=
      .binary hg.core_eq hcore span fun hordered => ?_
    · simpa using hspoils
    · cases hordered with
      | joined _ _ hle _ =>
        rw [breaksLeft_eq, ← hg.tier_eq] at hbreaks
        exact Nat.not_lt.2 hle (of_decide_eq_true hbreaks)
  | @right op left right l r span hbreaks hl hr =>
    obtain ⟨hleft, hright⟩ := hn.of_binary
    obtain ⟨g, rfl, hg⟩ := exists_lays_of_source (hleft.wrapped _) hl
    obtain ⟨g', rfl, hg'⟩ := exists_lays_of_source hright hr
    have hcore := hg.core_eq.trans (core_wrapped _ _)
    have hspoils : Spoils (g.line ++ ' ' :: op.symbol ++ ' ' :: g'.line) _ :=
      .binary hcore hg'.core_eq span fun hordered => ?_
    · simpa using hspoils
    · cases hordered with
      | joined _ _ _ hlt =>
        rw [breaksRight_eq, ← hg'.tier_eq] at hbreaks
        exact Nat.not_le.2 hlt (of_decide_eq_true hbreaks)
  | @inLeft op left right before inside after r span h hr ih =>
    obtain ⟨hleft, hright⟩ := hn.of_binary
    obtain ⟨g', rfl, hg'⟩ := exists_lays_of_source (hright.wrapped _) hr
    have hspoils := (ih (hleft.wrapped _)).inLeft hg' span
    simpa using hspoils
  | @inRight op left right l before inside after span hl h ih =>
    obtain ⟨hleft, hright⟩ := hn.of_binary
    obtain ⟨g, rfl, hg⟩ := exists_lays_of_source (hleft.wrapped _) hl
    have hspoils := Spoils.inRight hg (ih (hright.wrapped _)) span
    simpa using hspoils
  | @inParentheses inner before inside after span h ih =>
    cases hn with
    | value h => cases h
    | parenthesized _ hinner =>
      have hspoils := (ih hinner).inParentheses span
      simpa using hspoils
  | @inArguments arg first others ts us before inside after name span hfirst hothers h ih =>
    have harg : arg.IsExpression := by
      cases hn with
      | value h => cases h
      | call _ _ hargs =>
        cases hargs arg (List.mem_append_right _ List.mem_cons_self) with
        | expression harg => exact harg
        | tuple => cases h
    have hspoils := (ih harg).inArguments harg hn hfirst hothers
    simpa using hspoils

end Node
end ProbeScript
