import ProbeScript.Proofs.Tree.Added
import ProbeScript.Proofs.WellFormed

/-! No parentheses are added in vain. Without a pair the text of a tree is still accepted, but its
operators are applied in another order; and nothing is added to a tree that was read from a text. -/
namespace ProbeScript

open Node Phrase

/-- Where the operators are ordered by tiers nothing is added. -/
private theorem Node.not_added {n : Node} {before inside after : Text}
    (h : ∀ m ∈ n.nodes, m.Shaped) :
    ¬ Added n before inside after := by
  intro hadded
  obtain ⟨op, left, right, span, hmem, hbreaks⟩ := hadded.exists_binary
  obtain ⟨hleft, hright⟩ : (∀ o ∈ left.operator?, op.tier ≤ o.tier) ∧
    ∀ o ∈ right.operator?, op.tier < o.tier := h _ hmem
  rcases hbreaks with hbreaks | hbreaks
  · obtain ⟨o, ho, hlt⟩ := (Option.any_eq_true _ _).1 hbreaks
    exact Nat.not_lt.2 (hleft o ho) (of_decide_eq_true hlt)
  · obtain ⟨o, ho, hle⟩ := (Option.any_eq_true _ _).1 hbreaks
    exact Nat.not_le.2 (hright o ho) (of_decide_eq_true hle)

namespace Goal

/-- A pair of parentheses that printing adds to an expression cannot be left out: what is left is
accepted, and it is another expression even when no parentheses count. To a tree that was read from
a text none is added. -/
theorem added_parentheses : (∀ n before inside after, expression.Form n →
      Added n before inside after → n.source = .ok (before ++ '(' :: inside ++ ')' :: after) ∧
        ∃ m, expression.read (before ++ inside ++ after) = .ok m ∧
          m.ungrouped.same n.ungrouped = false) ∧
    ∀ (g : Goal) source n, g.read source = .ok n →
      ∀ m ∈ n.nodes, ∀ before inside after, ¬ Added m before inside after := by
  constructor
  · intro n before inside after hn hadded
    refine ⟨hadded.source_eq, ?_⟩
    obtain ⟨k, hk, hsource, -, hne⟩ := (hadded.spoils hn).exists_read
    obtain ⟨t, m, ht, hread, hbare⟩ := Form.read_source (g := expression) hk
    obtain rfl := Except.ok.inj (hsource.symm.trans ht)
    refine ⟨m, hread, Bool.eq_false_iff.2 fun hsame => hne ?_⟩
    rw [← core_eq_of_bare hbare, (same_ungrouped_iff m n).1 hsame]
  · intro g source n hread m hm before inside after
    exact not_added fun k hk => (wellFormed_of_read hread k (mem_nodes_trans hk hm)).shaped

/-- A sum that is a factor, and the same sum read with the parentheses in the text. -/
theorem added_parentheses_sum :
    (∃ m, expression.read "a + b * c".toList = .ok m ∧ m.ungrouped.same (.binary .multiply
      (.binary .add (.identifier ['a'] none) (.identifier ['b'] none) none)
        (.identifier ['c'] none) none) = false) ∧
    ∃ n, expression.read "(a+b)*c".toList = .ok n ∧
      ∀ before inside after, ¬ Added n before inside after := by
  constructor
  · have hname (c : Char) (hc : isNameStart c = true) : IsExpression (.identifier [c] none) :=
      .value (.identifier none (.named hc (List.forall_mem_nil _)))
    have hform : expression.Form (.binary .multiply (.binary .add (.identifier ['a'] none)
        (.identifier ['b'] none) none) (.identifier ['c'] none) none) :=
      IsExpression.binary _ none (.binary _ none (hname 'a' rfl) (hname 'b' rfl)) (hname 'c' rfl)
    exact (added_parentheses.1 _ _ "a + b".toList _ hform (.left none rfl rfl rfl)).2
  · have hkept : Segment.Kept "(a+b)*c".toList := .word (Text.forall_mem_of_all (by decide))
    let sum : Chain :=
      .more (.one (.value (.name ⟨1, ['a']⟩))) ⟨.add, 2⟩ (.value (.name ⟨3, ['b']⟩))
    let group : Operand := .group ⟨0, ['(']⟩ sum ⟨4, [')']⟩
    let d : expression.Phrase := .more (.one group) ⟨.multiply, 5⟩ (.value (.name ⟨6, ['c']⟩))
    have hread : expression.initial.read 0 0 "(a+b)*c".toList = .ok (expression.final d) := rfl
    obtain ⟨n, hn⟩ : ∃ n, expression.read "(a+b)*c".toList = .ok n :=
      ⟨_, read_of_kept hkept hread rfl⟩
    exact ⟨n, hn, added_parentheses.2 expression _ n hn n (self_mem_nodes n)⟩

end Goal
end ProbeScript
