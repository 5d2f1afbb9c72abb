import ProbeScript.Proofs.Acceptance
import ProbeScript.Proofs.Text.Blanking
import ProbeScript.Proofs.Tree.Parsed
import ProbeScript.Proofs.Tree.PrintedScript

/-! Reading and writing undo each other. The tree that a text is read into has a text itself, and
this text is read into the same tree. -/
namespace ProbeScript.Goal

open Phrase Node
open Segment (Kept)

variable {g : Goal} {source : Text} {n : Node}

/-- The trees that have a text for the goal. -/
def Form : Goal → Node → Prop
  | script => IsScript
  | expression => IsExpression

/-- A text is read into a tree that has a text, with no parentheses left to be made explicit. -/
theorem form_of_read (h : g.read source = .ok n) : g.Form n ∧ n.normal = n := by
  obtain ⟨text, d, -, hcovers, htree⟩ := exists_covers_of_read h
  have hspelled := hcovers.spelled
  cases g with
  | script => exact Script.tree_isScript hspelled htree
  | expression => exact Chain.tree_isExpression hspelled htree

private theorem Form.written (h : g.Form n) :
    ∃ t, n.source = .ok t ∧ Written g.tokens (Forms (fun source => g.tree source) n.normal) t := by
  cases g with
  | script => exact script_written h
  | expression =>
    obtain ⟨t, ht, hwritten⟩ := expression_written h
    exact ⟨t, ht, hwritten.map id (fun _ => rfl) fun _ hc => hc.forms⟩

/-- The text of a tree, with white space after it, is read into the tree with its parentheses made
explicit. -/
theorem Form.read_source_append (h : g.Form n) {rest : Text}
    (hrest : ∀ c ∈ rest, Text.isLayout c = true) :
    ∃ t m, n.source = .ok t ∧ g.read (t ++ rest) = .ok m ∧ m.bare = n.normal.bare := by
  obtain ⟨t, ht, hkept, hscans⟩ := h.written
  obtain ⟨d, j, hscans, hd⟩ := hscans 0 rest fun c hc =>
    Terminal.mem_separators_of_isLayout (hrest c (List.mem_of_mem_head? hc))
  obtain ⟨m, hm, hbare⟩ := hd (t ++ rest)
  have hend := Scans.after_layout hrest (.done (j + rest.length) [])
  rw [List.append_nil] at hend
  have hall := hscans.append hend
  rw [List.append_nil] at hall
  have hcovers : Covers (t ++ rest) (g.tokens d) := by
    have hlen := hall.length_eq
    rwa [Covers, show (t ++ rest).length = j + rest.length by simpa using hlen]
  refine ⟨t, m, ht, ?_, hbare⟩
  have htree : g.tree (t ++ rest) d = .ok m := hm
  rw [read_of_covers (Text.blanked_of_kept (hkept.append (Segment.kept_of_isLayout hrest))) hcovers,
    htree]
  rfl

/-- The text of a tree is read into the tree with its parentheses made explicit. -/
theorem Form.read_source (h : g.Form n) :
    ∃ t m, n.source = .ok t ∧ g.read t = .ok m ∧ m.bare = n.normal.bare := by
  obtain ⟨t, m, ht, hread, hbare⟩ := h.read_source_append (List.forall_mem_nil _)
  rw [List.append_nil] at hread
  exact ⟨t, m, ht, hread, hbare⟩

/-- Every text that is accepted has a tree that has a text, which is accepted too, with the same
tree. -/
theorem source_round_trip (g : Goal) {source : Text} {n : Node} (h : g.read source = .ok n) :
    ∃ text, n.source = .ok text ∧ ∃ m, g.read text = .ok m ∧ m.same n = true := by
  obtain ⟨hform, hnorm⟩ := form_of_read h
  obtain ⟨t, m, ht, hread, hbare⟩ := hform.read_source
  refine ⟨t, ht, m, hread, (same_iff m n).2 ?_⟩
  rw [hbare, hnorm]

/-- An identifier between parentheses, where an argument is wanted. -/
theorem source_round_trip_tuple : ∃ n, expression.read "f((x))-y".toList = .ok n ∧
    ∃ text, n.source = .ok text ∧ ∃ m, expression.read text = .ok m ∧ m.same n = true := by
  have hkept : Kept "f((x))-y".toList := .word (Text.forall_mem_of_all (by decide))
  let group : Operand := .group ⟨2, ['(']⟩ (.one (.value (.name ⟨3, ['x']⟩))) ⟨4, [')']⟩
  let call : Call := .applied ⟨0, ['f']⟩ ⟨1, ['(']⟩ (.one (.chain (.one group))) ⟨5, [')']⟩
  let d : Chain := .more (.one (.call call)) ⟨.subtract, 6⟩ (.value (.name ⟨7, ['y']⟩))
  have hcovers : Covers "f((x))-y".toList (expression.tokens d) := read_eq_ok_iff.1 rfl
  have hread : ∃ n, expression.read "f((x))-y".toList = .ok n := by
    rw [read_of_covers (Text.blanked_of_kept hkept) hcovers]
    exact ⟨_, rfl⟩
  obtain ⟨n, hn⟩ := hread
  exact ⟨n, hn, source_round_trip expression hn⟩

end ProbeScript.Goal
