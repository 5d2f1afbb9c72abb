import ProbeScript.Proofs.Spans
import ProbeScript.Proofs.Tree.Outermost

/-! A walk over a tree that was read goes through the text from left to right. -/
namespace ProbeScript.Goal

open Node Phrase

private theorem nested_of_read {g : Goal} {source : Text} {n : Node} (h : g.read source = .ok n) :
    ∀ m ∈ n.nodes, m.Nested := by
  obtain ⟨text, d, hblanked, hcovers, htree⟩ := exists_covers_of_read h
  have hascending := hcovers.ascending
  rw [Text.blanked_length hblanked] at hascending
  exact (within_of_tree htree).nested hascending

/-- Whatever kinds are searched for, just the outermost nodes of these kinds are found, each once
and in the order of the text. Every node of the tree has its children within its own stretch of
text, one after the other. -/
theorem outermost_exact (g : Goal) {source : Text} {n : Node} (h : g.read source = .ok n) :
    (∀ stop, Finds stop n (n.outermost stop) ∧ (n.outermost stop).Pairwise Precedes) ∧
      ∀ m ∈ n.nodes, m.Nested := by
  have hnested := nested_of_read h
  exact ⟨fun stop => ⟨outermost_finds stop n, pairwise_precedes_outermost hnested⟩, hnested⟩

/-- A sum with a call, whose last argument is a tuple. -/
theorem outermost_exact_sum : ∃ n, expression.read "a+f(b,(c))".toList = .ok n ∧
    (∀ stop, Finds stop n (n.outermost stop) ∧ (n.outermost stop).Pairwise Precedes) ∧
      ∀ m ∈ n.nodes, m.Nested := by
  have hkept : Segment.Kept "a+f(b,(c))".toList := .word (Text.forall_mem_of_all (by decide))
  let name (i : Nat) (c : Char) : Operand := .value (.name ⟨i, [c]⟩)
  let group : Operand := .group ⟨6, ['(']⟩ (.one (name 7 'c')) ⟨8, [')']⟩
  let args : Args := .more (.one (.chain (.one (name 4 'b')))) ⟨5, [',']⟩ (.chain (.one group))
  let call : Call := .applied ⟨2, ['f']⟩ ⟨3, ['(']⟩ args ⟨9, [')']⟩
  let d : expression.Phrase := .more (.one (name 0 'a')) ⟨.add, 1⟩ (.call call)
  have hread : expression.initial.read 0 0 "a+f(b,(c))".toList = .ok (expression.final d) := rfl
  obtain ⟨n, hn⟩ : ∃ n, expression.read "a+f(b,(c))".toList = .ok n :=
    ⟨_, read_of_kept hkept hread rfl⟩
  exact ⟨n, hn, outermost_exact expression hn⟩

end ProbeScript.Goal
