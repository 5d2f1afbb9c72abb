import ProbeScript.Proofs.Phrase.Excerpt
import ProbeScript.Proofs.Tokens
import ProbeScript.Proofs.Tree.Placed

/-! The stretch of text of a node is where the node was read: cut out of the text, with the comments
in it, the stretch is read into the same node again. -/
namespace ProbeScript

open Phrase

namespace Goal

/-- The text is accepted, with the same tree. -/
def ReadsAs (g : Goal) (t : Text) (n : Node) : Prop := ∃ k, g.read t = .ok k ∧ k.same n = true

variable {g : Goal} {source t : Text} {n m : Node} {us : List Token}

/-- A text with tokens like those of a phrase is read into the tree of the phrase. -/
theorem readsAs_of_alike {text : Text} {d : g.Phrase} (h : Text.blanked t = .ok text)
    (hus : Covers text us) (halike : Alike us (g.tokens d)) (hn : g.tree source d = .ok n)
    (hm : n.bare = m.bare) : g.ReadsAs t m := by
  obtain ⟨d', rfl, hforms⟩ := exists_alike halike hn
  obtain ⟨k, hk, hbare⟩ := hforms t
  have htree : g.tree t d' = .ok k := hk
  refine ⟨k, ?_, (Node.same_iff k m).2 (hbare.trans hm)⟩
  rw [read_of_covers h hus, htree]
  rfl

theorem readsAs_of_excerpt {d : g.Phrase} (h : Excerpt (g.tokens d) t)
    (hn : g.tree source d = .ok n) (hm : n.bare = m.bare) : g.ReadsAs t m := by
  obtain ⟨text, us, hblanked, hcovers, halike⟩ := h.exists_covers
  exact readsAs_of_alike hblanked hcovers halike hn hm

end Goal

namespace Node
open Goal

/-- The text holds the node. An expression, a probe or a script is read from it as it is; an
assignment is the only statement of a probe, and a tuple the only argument of a call. -/
def ReadsBack (n : Node) (t : Text) : Prop :=
  match n with
  | .plain _ => False
  | .spec parts _ => t = specText parts
  | .script .. => Goal.script.ReadsAs t n
  | .probe .. => Goal.script.ReadsAs t (.script [n] none)
  | .assignment .. => Goal.script.ReadsAs ("p \x7b".toList ++ t ++ ";\x7d".toList)
    (.script [.probe (.spec [some ['p']] none) none [n] none] none)
  | .tuple .. => Goal.expression.ReadsAs ("f(".toList ++ t ++ ")".toList) (.call ['f'] [n] none)
  | _ => Goal.expression.ReadsAs t n

/-- The node has a stretch of text, from one index of the text to another, and is read back from
what stands there. -/
def IsAt (source : Text) (n : Node) : Prop :=
  ∃ i j, i < j ∧ j ≤ source.length ∧
    n.span = some ⟨(Position.at source i).line, (Position.at source i).column,
      (Position.at source j).line, (Position.at source j).column⟩ ∧
    n.ReadsBack ((source.take j).drop i)

private theorem IsExpression.readsBack {n : Node} {t : Text} (h : IsExpression n)
    (ht : expression.ReadsAs t n) : n.ReadsBack t := by
  cases h with
  | value h => cases h <;> exact ht
  | binary | parenthesized | call => exact ht

end Node

namespace Phrase
open Goal Node

variable {source t : Text} {n : Node} {us : List Token}

private theorem Arg.readsAs_of_excerpt {a : Arg} (h : Excerpt a.tokens t)
    (hn : a.tree source = .ok n) :
    Goal.expression.ReadsAs ("f(".toList ++ t ++ ")".toList) (.call ['f'] [n] none) := by
  let call : Call := .applied ⟨0, ['f']⟩ ⟨0, ['(']⟩ (.one a) ⟨0, [')']⟩
  let d : expression.Phrase := .one (.call call)
  have hcall : call.tree source = .ok (.call ['f'] [n] _) :=
    Call.tree_applied_iff.2 ⟨_, Args.tree_one_iff.2 ⟨n, hn, rfl⟩, rfl⟩
  have htree : expression.tree source d = .ok (.call ['f'] [n] _) := Chain.tree_one hcall
  exact Goal.readsAs_of_excerpt (d := d) h.argument htree rfl

theorem mapM_singleton {α : Type} {tree : Text → α → Fallible Node} {a : α}
    (h : tree source a = .ok n) : [a].mapM (tree source) = .ok [n] :=
  mapM_eq_ok_iff.2 (.cons h .nil)

theorem Probe.readsAs_of_excerpt {p : Probe} (h : Excerpt p.tokens t)
    (hn : p.tree source = .ok n) {m : Node} (hm : n.bare = m.bare) :
    Goal.script.ReadsAs t (.script [m] none) := by
  let d : Goal.script.Phrase := (⟨p, []⟩ : Script)
  have htree : Goal.script.tree source d = .ok (.script [n] _) :=
    Script.tree_iff.2 ⟨[n], mapM_singleton hn, rfl⟩
  refine Goal.readsAs_of_excerpt (d := d) ?_ htree ?_
  · rwa [show Goal.script.tokens d = p.tokens from List.flatMap_singleton _ _]
  · rw [bare, bareAll, bareAll, hm]
    rfl

private theorem Statement.readsAs_of_excerpt {target equal : Lexeme} {c : Chain}
    (h : Excerpt (⟨.name, target⟩ :: ⟨.equal, equal⟩ :: c.tokens) t)
    (hn : ∀ semicolon, (Statement.assignment target equal c semicolon).tree source = .ok n) :
    Goal.script.ReadsAs ("p \x7b".toList ++ t ++ ";\x7d".toList)
      (.script [.probe (.spec [some ['p']] none) none [n] none] none) := by
  let p : Probe := ⟨⟨0, ['p']⟩, none, ⟨0, ['\x7b']⟩, .assignment target equal c ⟨0, [';']⟩, [],
    ⟨0, ['\x7d']⟩⟩
  have hbody : p.statements.mapM (Statement.tree source) = .ok [n] := mapM_singleton (hn _)
  have htree : p.tree source = .ok (.probe (.spec [some ['p']] _) none [n] _) :=
    Probe.tree_iff.2 ⟨none, [n], _, rfl, hbody, rfl, rfl⟩
  refine Probe.readsAs_of_excerpt (p := p) ?_ htree rfl
  have htokens : p.tokens = ⟨.probeSpec, 0, ['p']⟩ :: ⟨.lbrace, 0, ['\x7b']⟩ ::
      ((⟨.name, target⟩ :: ⟨.equal, equal⟩ :: c.tokens) ++
        [⟨.semicolon, 0, [';']⟩, ⟨.rbrace, 0, ['\x7d']⟩]) := by
    simp [p, Probe.tokens, Probe.statements, Statement.tokens]
  rw [htokens]
  exact h.body

/-- A node is read from any stretch with its tokens. -/
private theorem Makes.readsBack (h : Makes source us n) (hspelled : ∀ x ∈ us, x.Spelled)
    (ht : Excerpt us t) (hword : ∀ x, us = [x] → t = x.lexeme.text) : n.ReadsBack t := by
  cases h with
  | @expression c _ hn =>
    have hexpression := (Chain.tree_isExpression hspelled hn).1
    exact hexpression.readsBack (Goal.readsAs_of_excerpt (g := .expression) ht hn rfl)
  | tuple hn => exact Arg.readsAs_of_excerpt ht hn
  | assignment hn =>
    have hread := Statement.readsAs_of_excerpt ht hn
    obtain ⟨m, -, rfl⟩ := Statement.tree_assignment_iff.1 (hn ⟨0, []⟩)
    exact hread
  | @spec l _ hn =>
    obtain ⟨parts, hparts, rfl⟩ := specNode_iff.1 hn
    exact (hword _ rfl).trans (ProbeSpec.split?_eq_some_iff.1 hparts).2.symm
  | @probe p _ hn =>
    have hread := Probe.readsAs_of_excerpt ht hn rfl
    obtain ⟨predicate, body, event, -, -, -, rfl⟩ := Probe.tree_iff.1 hn
    exact hread
  | @script s _ hn =>
    have hread := Goal.readsAs_of_excerpt (g := .script) (d := s) ht hn rfl
    obtain ⟨probes, -, rfl⟩ := Script.tree_iff.1 hn
    exact hread

end Phrase

namespace Goal

theorem within_of_tree {g : Goal} {source : Text} {d : g.Phrase} {n : Node}
    (h : g.tree source d = .ok n) : Within source (g.tokens d) n := by
  cases g with
  | script => exact (Script.placed h).within
  | expression => exact (Chain.placed h).within

/-- Every node of a tree that was read is where its stretch of text says. -/
theorem read_spans (g : Goal) {source : Text} {n : Node} (h : g.read source = .ok n) :
    ∀ m ∈ n.nodes, m.IsAt source := by
  obtain ⟨text, d, hblanked, hcovers, htree⟩ := exists_covers_of_read h
  intro m hm
  obtain ⟨us, hus, ⟨x, y, hx, hy, hspan⟩, hmakes⟩ := within_of_tree htree m hm
  obtain ⟨hlt, hle, hexcerpt⟩ := excerpt_of_infix hblanked hcovers hus hx hy
  refine ⟨x.lexeme.start, y.lexeme.stop, hlt, hle, hspan, ?_⟩
  refine hmakes.readsBack (fun z hz => hcovers.spelled z (hus.subset hz)) hexcerpt ?_
  rintro z rfl
  obtain rfl := Option.some.inj hx
  obtain rfl := Option.some.inj hy
  exact slice_of_mem hblanked hcovers (hus.subset List.mem_cons_self)

/-- A difference with a comment in it. -/
theorem read_spans_comment : ∃ n, expression.read "a-/*-*/b".toList = .ok n ∧
    ∀ m ∈ n.nodes, m.IsAt "a-/*-*/b".toList := by
  have hrow : Segment.Row "a-/*-*/b".toList
      [.plain 'a', .plain '-', .blockComment "/*-*/".toList, .plain 'b'] [] :=
    .more rfl (.more rfl (.more rfl (.more rfl (.done []))))
  have hblanked : Text.blanked "a-/*-*/b".toList = .ok "a-     b".toList :=
    Text.blanked_eq_ok_iff.2 ⟨_, hrow, rfl⟩
  let d : expression.Phrase :=
    .more (.one (.value (.name ⟨0, ['a']⟩))) ⟨.subtract, 1⟩ (.value (.name ⟨7, ['b']⟩))
  have hcovers : Covers "a-     b".toList (expression.tokens d) := read_eq_ok_iff.1 rfl
  obtain ⟨n, hn⟩ : ∃ n, expression.read "a-/*-*/b".toList = .ok n := by
    rw [read_of_covers hblanked hcovers]
    exact ⟨_, rfl⟩
  exact ⟨n, hn, read_spans expression hn⟩

end Goal
end ProbeScript
