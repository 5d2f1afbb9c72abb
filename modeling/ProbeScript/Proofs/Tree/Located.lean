import ProbeScript.Phrase.Tree
import ProbeScript.Proofs.Text.Blanking

/-! Where the nodes of a tree stand. A tree takes nothing from the text but lines and columns, so a
phrase has the same tree in all texts with the same lines. -/
namespace ProbeScript.Phrase

open Text (SameLines)
variable {source source' : Text}

private theorem Lexeme.through_eq (h : SameLines source source') :
    Lexeme.through source = Lexeme.through source' := by
  funext first last
  rw [through, through, Span.between_eq h]

private theorem Lexeme.span_eq (h : SameLines source source') :
    Lexeme.span source = Lexeme.span source' := by
  funext l
  rw [span, span, through_eq h]

private theorem Value.tree_eq (h : SameLines source source') :
    Value.tree source = Value.tree source' := by
  funext v
  cases v <;> simp only [tree, Lexeme.span_eq h]

private theorem Values.tree_eq (h : SameLines source source') :
    Values.tree source = Values.tree source' := by
  funext vs
  induction vs with
  | one v => simp only [tree, Value.tree_eq h]
  | more init comma last ih => simp only [tree, ih, Value.tree_eq h]

mutual

private theorem Operand.tree_eq (h : SameLines source source') :
    (o : Operand) → o.tree source = o.tree source'
  | .value v => congrFun (Value.tree_eq h) v
  | .group lpar inner rpar => by
    simp only [Operand.tree, inner.grouping_eq h, Lexeme.through_eq h]
  | .call c => c.tree_eq h

private theorem Chain.grouping_eq (h : SameLines source source') :
    (c : Chain) → c.grouping source = c.grouping source'
  | .one o => by simp only [Chain.grouping, o.tree_eq h]
  | .more init joint last => by simp only [Chain.grouping, init.grouping_eq h, last.tree_eq h]

private theorem Call.tree_eq (h : SameLines source source') :
    (c : Call) → c.tree source = c.tree source'
  | .bare name lpar rpar => by simp only [Call.tree, Lexeme.through_eq h]
  | .applied name lpar args rpar => by
    simp only [Call.tree, args.tree_eq h, Lexeme.through_eq h]

private theorem Args.tree_eq (h : SameLines source source') :
    (as : Args) → as.tree source = as.tree source'
  | .one a => by simp only [Args.tree, a.tree_eq h]
  | .more init comma last => by simp only [Args.tree, init.tree_eq h, last.tree_eq h]

private theorem Arg.tree_eq (h : SameLines source source') :
    (a : Arg) → a.tree source = a.tree source'
  | .chain c => by simp only [Arg.tree, c.grouping_eq h]
  | .tuple lpar init comma last rpar => by
    simp only [Arg.tree, Values.tree_eq h, Value.tree_eq h, Lexeme.through_eq h]

end

theorem Chain.tree_eq (h : SameLines source source') : Chain.tree source = Chain.tree source' := by
  funext c
  rw [tree, tree, c.grouping_eq h]

private theorem Statement.tree_eq (h : SameLines source source') :
    Statement.tree source = Statement.tree source' := by
  funext s
  cases s with
  | assignment target equal value semicolon =>
    simp only [tree, Chain.tree_eq h, Lexeme.span_eq h, Lexeme.through_eq h]
  | call c semicolon => exact c.tree_eq h

private theorem specNode_eq (h : SameLines source source') :
    specNode source = specNode source' := by
  funext spec
  simp only [specNode, Lexeme.span_eq h]

private theorem Probe.tree_eq (h : SameLines source source') :
    Probe.tree source = Probe.tree source' := by
  funext p
  simp only [tree, Chain.tree_eq h, Statement.tree_eq h, specNode_eq h, Lexeme.through_eq h]

theorem Script.tree_eq (h : SameLines source source') :
    Script.tree source = Script.tree source' := by
  funext s
  simp only [tree, Probe.tree_eq h, Lexeme.through_eq h]

end ProbeScript.Phrase
