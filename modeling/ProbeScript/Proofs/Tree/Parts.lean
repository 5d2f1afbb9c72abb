import Mathlib.Data.List.Forall2
import ProbeScript.Phrase.Tree

/-! The tree of each kind of phrase, by the trees of its parts. A phrase has a tree exactly if its
parts have one. -/
namespace ProbeScript

section
variable {ε α β γ : Type} {e : Except ε α}

theorem bind_eq_ok_iff {f : α → Except ε β} {b : β} :
    e >>= f = .ok b ↔ ∃ a, e = .ok a ∧ f a = .ok b := by
  cases e with
  | error fault => exact ⟨fun h => (by cases h), fun ⟨_, h, _⟩ => (by cases h)⟩
  | ok a => exact ⟨fun h => ⟨a, rfl, h⟩, fun ⟨_, h, hf⟩ => Except.ok.inj h ▸ hf⟩

theorem bind_pure_eq_ok_iff {f : α → β} {b : β} :
    (e >>= fun a => pure (f a)) = .ok b ↔ ∃ a, e = .ok a ∧ b = f a := by
  rw [bind_eq_ok_iff]
  apply exists_congr
  intro a
  exact and_congr_right fun _ => ⟨fun h => (Except.ok.inj h).symm, fun h => congrArg _ h.symm⟩

theorem bind_bind_pure_eq_ok_iff {e' : Except ε β} {f : α → β → γ} {c : γ} :
    (e >>= fun a => e' >>= fun b => pure (f a b)) = .ok c ↔
      ∃ a b, e = .ok a ∧ e' = .ok b ∧ c = f a b := by
  rw [bind_eq_ok_iff]
  simp only [bind_pure_eq_ok_iff, exists_and_left]

theorem mapM_eq_ok_iff {f : α → Except ε β} {as : List α} {bs : List β} :
    as.mapM f = .ok bs ↔ List.Forall₂ (fun a b => f a = .ok b) as bs := by
  induction as generalizing bs with
  | nil => exact ⟨fun h => Except.ok.inj h ▸ .nil, fun h => by cases h; rfl⟩
  | cons a as ih =>
    rw [List.mapM_cons, bind_bind_pure_eq_ok_iff]
    constructor
    · rintro ⟨b, bs, hb, hbs, rfl⟩
      exact .cons hb (ih.1 hbs)
    · rintro (_ | ⟨hb, hbs⟩)
      exact ⟨_, _, hb, ih.2 hbs, rfl⟩

end

namespace Phrase

variable {source : Text} {n : Node} {ns : List Node}

theorem Value.tree_integer_iff {r : Radix} {word : Lexeme} :
    (Value.integer r word).tree source = .ok n ↔
      ∃ k, r.read (word.text.drop r.marker.length) = .ok k ∧
        n = .integer k r.base (word.span source) := by
  rw [tree]
  cases r.read (word.text.drop r.marker.length) with
  | error count => simp
  | ok k =>
    simp only [Except.ok.injEq, exists_eq_left']
    exact eq_comm

theorem Values.tree_one_iff {v : Value} :
    (Values.one v).tree source = .ok ns ↔ ∃ n, v.tree source = .ok n ∧ ns = [n] :=
  bind_pure_eq_ok_iff

theorem Values.tree_more_iff {init : Values} {comma : Lexeme} {last : Value} :
    (Values.more init comma last).tree source = .ok ns ↔
      ∃ ms m, init.tree source = .ok ms ∧ last.tree source = .ok m ∧ ns = ms ++ [m] :=
  bind_bind_pure_eq_ok_iff

theorem Operand.tree_group_iff {lpar rpar : Lexeme} {inner : Chain} :
    (Operand.group lpar inner rpar).tree source = .ok n ↔ ∃ g, inner.grouping source = .ok g ∧
      n = .parenthesized g.node (lpar.through source rpar) :=
  bind_pure_eq_ok_iff

theorem Chain.grouping_one_iff {o : Operand} {g : Grouping Node} :
    (Chain.one o).grouping source = .ok g ↔ ∃ n, o.tree source = .ok n ∧ g = .operand n :=
  bind_pure_eq_ok_iff

theorem Chain.grouping_more_iff {init : Chain} {joint : Joint} {last : Operand}
    {g : Grouping Node} : (Chain.more init joint last).grouping source = .ok g ↔
      ∃ g' n, init.grouping source = .ok g' ∧ last.tree source = .ok n ∧
        g = g'.attach joint.op n :=
  bind_bind_pure_eq_ok_iff

theorem Chain.tree_iff {c : Chain} :
    c.tree source = .ok n ↔ ∃ g, c.grouping source = .ok g ∧ n = g.node :=
  bind_pure_eq_ok_iff

/-- The tree of an operand is that of the chain of this operand alone. -/
theorem Chain.tree_one {o : Operand} (h : o.tree source = .ok n) :
    (Chain.one o).tree source = .ok n :=
  tree_iff.2 ⟨.operand n, grouping_one_iff.2 ⟨n, h, rfl⟩, rfl⟩

theorem Chain.tree_one_eq (o : Operand) : (Chain.one o).tree source = o.tree source := by
  cases h : o.tree source with
  | ok n => exact tree_one h
  | error fault =>
    rw [tree, grouping, h]
    rfl

theorem Call.tree_applied_iff {name lpar rpar : Lexeme} {args : Args} :
    (Call.applied name lpar args rpar).tree source = .ok n ↔ ∃ ns, args.tree source = .ok ns ∧
      n = .call name.text ns (name.through source rpar) :=
  bind_pure_eq_ok_iff

theorem Args.tree_one_iff {a : Arg} :
    (Args.one a).tree source = .ok ns ↔ ∃ n, a.tree source = .ok n ∧ ns = [n] :=
  bind_pure_eq_ok_iff

theorem Args.tree_more_iff {init : Args} {comma : Lexeme} {last : Arg} :
    (Args.more init comma last).tree source = .ok ns ↔
      ∃ ms m, init.tree source = .ok ms ∧ last.tree source = .ok m ∧ ns = ms ++ [m] :=
  bind_bind_pure_eq_ok_iff

theorem Arg.tree_chain_iff {c : Chain} : (Arg.chain c).tree source = .ok n ↔
    ∃ g, c.grouping source = .ok g ∧ n = asArgument g.node :=
  bind_pure_eq_ok_iff

theorem Arg.tree_tuple_iff {lpar comma rpar : Lexeme} {init : Values} {last : Value} :
    (Arg.tuple lpar init comma last rpar).tree source = .ok n ↔
      ∃ ms m, init.tree source = .ok ms ∧ last.tree source = .ok m ∧
        n = .tuple (ms ++ [m]) (lpar.through source rpar) :=
  bind_bind_pure_eq_ok_iff

theorem Statement.tree_assignment_iff {target equal semicolon : Lexeme} {value : Chain} :
    (Statement.assignment target equal value semicolon).tree source = .ok n ↔
      ∃ m, value.tree source = .ok m ∧ n = .assignment
        (.identifier target.text (target.span source)) m (target.through source value.final) :=
  bind_pure_eq_ok_iff

theorem Guard.mapM_some_iff {g : Guard} {predicate : Option Node} :
    (some g).mapM (·.predicate.tree source) = .ok predicate ↔
      ∃ q, g.predicate.tree source = .ok q ∧ predicate = some q :=
  bind_pure_eq_ok_iff

theorem specNode_iff {spec : Lexeme} : specNode source spec = .ok n ↔
    ∃ parts, ProbeSpec.split? spec.text = some parts ∧ n = .spec parts (spec.span source) := by
  rw [specNode]
  cases ProbeSpec.split? spec.text with
  | none => simp
  | some parts =>
    simp only [Except.ok.injEq, Option.some.injEq, exists_eq_left']
    exact eq_comm

theorem Probe.tree_iff {p : Probe} : p.tree source = .ok n ↔ ∃ predicate body event,
    p.guard.mapM (·.predicate.tree source) = .ok predicate ∧
      p.statements.mapM (Statement.tree source) = .ok body ∧ specNode source p.spec = .ok event ∧
        n = .probe event predicate body (p.spec.through source p.rbrace) := by
  refine bind_eq_ok_iff.trans (exists_congr fun predicate => ?_)
  rw [bind_bind_pure_eq_ok_iff]
  simp only [exists_and_left]

theorem Script.tree_iff {s : Script} : s.tree source = .ok n ↔
    ∃ probes, s.probes.mapM (Probe.tree source) = .ok probes ∧
      n = .script probes (s.first.spec.through source (s.others.getLastD s.first).rbrace) :=
  bind_pure_eq_ok_iff

end Phrase
end ProbeScript
