import Mathlib.Tactic.Tauto
import ProbeScript.Proofs.Goal

/-! Why a derivation has no tree: some decimal literal is too long or some event specification has
too many parts, and the first of these is the one reported. -/
namespace ProbeScript.Phrase

/-- What is wrong with a token apart from its place. -/
def Token.fault? (t : Token) : Option TreeFault :=
  match t.terminal with
  | .decimal =>
    if Radix.digitLimit < t.lexeme.text.length then some (.digits t.lexeme.text.length) else none
  | .probeSpec =>
    if 3 < t.lexeme.text.count ':' then some (.malformedSpec t.lexeme.start t.lexeme.text) else none
  | _ => none

/-- The tokens in the order in which they are checked: the event specification of a probe comes
after its predicate and its body. -/
def Probe.checks (p : Probe) : List Token :=
  p.guard.elim [] Guard.tokens ++ p.statements.flatMap Statement.tokens ++ [⟨.probeSpec, p.spec⟩]

/-- The computation fails with the first fault among the tokens, and succeeds if there is none. -/
def Checks {α : Type} (e : Fallible α) (ts : List Token) : Prop :=
  match ts.findSome? Token.fault? with
  | none => ∃ a, e = .ok a
  | some f => e = .error f

namespace Checks
variable {α β : Type} {e : Fallible α} {f : α → Fallible β} {ts us : List Token} {t : Token}

private theorem pure (a : α) : Checks (.ok a) [] := ⟨a, rfl⟩

private theorem bind (he : Checks e ts) (hf : ∀ a, Checks (f a) us) :
    Checks (e >>= f) (ts ++ us) := by
  unfold Checks at he ⊢
  rw [List.findSome?_append]
  cases h : ts.findSome? Token.fault? with
  | none =>
    rw [h] at he
    obtain ⟨a, rfl⟩ := he
    exact hf a
  | some fault =>
    rw [h] at he
    subst he
    rfl

private theorem map (g : α → β) (he : Checks e ts) : Checks (e >>= fun a => .ok (g a)) ts := by
  have h := he.bind (f := fun a => .ok (g a)) fun a => pure (g a)
  rwa [List.append_nil] at h

/-- A token that cannot be at fault may stand before the others. -/
private theorem cons (ht : t.fault? = none) (he : Checks e ts) : Checks e (t :: ts) := by
  unfold Checks at he ⊢
  rwa [List.findSome?_cons_of_isNone (by rw [ht]; rfl)]

private theorem concat (ht : t.fault? = none) (he : Checks e ts) : Checks e (ts ++ [t]) := by
  unfold Checks at he ⊢
  rwa [List.findSome?_append, List.findSome?_cons_of_isNone (by rw [ht]; rfl), List.findSome?_nil,
    Option.or_none]

end Checks

variable {source : Text}

private theorem Value.checks (v : Value) : Checks (v.tree source) [v.token] := by
  rcases v with word | word | ⟨radix, word⟩
  · exact .cons rfl (.pure _)
  · exact .cons rfl (.pure _)
  · cases radix
    case decimal =>
      unfold Checks
      rw [List.findSome?_singleton]
      by_cases hlen : Radix.digitLimit < word.text.length
      · simp [Token.fault?, Value.token, Terminal.ofRadix, Value.tree, Radix.read, Radix.marker,
          hlen]
      · simp [Token.fault?, Value.token, Terminal.ofRadix, Value.tree, Radix.read, Radix.marker,
          hlen]
    all_goals exact .cons rfl (.pure _)

private theorem Joint.fault? (j : Joint) : j.token.fault? = none := by
  obtain ⟨op, i⟩ := j
  cases op <;> rfl

private theorem Values.checks (vs : Values) : Checks (vs.tree source) vs.tokens := by
  induction vs with
  | one v => exact v.checks.map _
  | more init comma last ih => exact ih.bind fun ns => (last.checks.map _).cons rfl

mutual

private theorem Operand.checks : (o : Operand) → Checks (o.tree source) o.tokens
  | .value v => v.checks
  | .group _ inner _ => (inner.checks.map _).concat rfl |>.cons rfl
  | .call c => c.checks

private theorem Chain.checks : (c : Chain) → Checks (c.grouping source) c.tokens
  | .one o => o.checks.map _
  | .more init joint last => init.checks.bind fun _ => (last.checks.map _).cons joint.fault?

private theorem Call.checks : (c : Call) → Checks (c.tree source) c.tokens
  | .bare .. => .cons rfl (.cons rfl (.cons rfl (.pure _)))
  | .applied _ _ args _ => .cons rfl (.cons rfl (args.checks.map _ |>.concat rfl))

private theorem Args.checks : (as : Args) → Checks (as.tree source) as.tokens
  | .one a => a.checks.map _
  | .more init _ last => init.checks.bind fun _ => (last.checks.map _).cons rfl

private theorem Arg.checks : (a : Arg) → Checks (a.tree source) a.tokens
  | .chain c => c.checks.map _
  | .tuple _ init _ last _ =>
    (init.checks.bind fun _ => ((last.checks.map _).concat rfl).cons rfl).cons rfl

end

private theorem Statement.checks (s : Statement) : Checks (s.tree source) s.tokens := by
  cases s with
  | assignment target equal value semicolon =>
    exact (((value.checks.map _).map _).concat rfl).cons rfl |>.cons rfl
  | call c semicolon => exact c.checks.concat rfl

private theorem Checks.mapM {α β : Type} {f : α → Fallible β} {tokens : α → List Token}
    {as : List α} (h : ∀ a ∈ as, Checks (f a) (tokens a)) :
    Checks (as.mapM f) (as.flatMap tokens) := by
  induction as with
  | nil => exact .pure _
  | cons a as ih =>
    rw [List.mapM_cons, List.flatMap_cons]
    obtain ⟨ha, has⟩ := List.forall_mem_cons.1 h
    exact ha.bind fun b => (ih has).map _

private theorem specNode_checks {spec : Lexeme} (h : Terminal.probeSpec.Spells spec.text) :
    Checks (specNode source spec) [⟨.probeSpec, spec⟩] := by
  obtain ⟨hne, hall⟩ := Terminal.spells_probeSpec h
  have hall' : spec.text.all (fun c => isSpecChar c || c == ':') = true := List.all_eq_true.2 hall
  unfold Checks
  rw [List.findSome?_singleton]
  by_cases hcount : 3 < spec.text.count ':'
  · have hsplit : ProbeSpec.split? spec.text = none := if_neg fun hc => by omega
    simp [Token.fault?, specNode, hsplit, hcount]
  · have hsplit : ProbeSpec.split? spec.text =
        some ((Text.pieces ':' spec.text).map ProbeSpec.part) :=
      if_pos ⟨hne, hall', by omega⟩
    simp [Token.fault?, specNode, hsplit, hcount]

private theorem Probe.tree_checks {p : Probe} (h : Terminal.probeSpec.Spells p.spec.text) :
    Checks (p.tree source) p.checks := by
  have hguard : Checks (p.guard.mapM (·.predicate.tree source)) (p.guard.elim [] Guard.tokens) := by
    cases p.guard with
    | none => exact .pure _
    | some g => exact (((g.predicate.checks.map _).map _).concat rfl).cons rfl
  rw [Probe.checks, List.append_assoc]
  exact hguard.bind fun _ => (Checks.mapM fun s _ => s.checks).bind fun _ =>
    (specNode_checks h).map _

end ProbeScript.Phrase

namespace ProbeScript.Goal
open Phrase

/-- The tokens of a derivation in the order of their checks, each probe before the next. -/
def checks : (g : Goal) → g.Phrase → List Token
  | script, s => (Script.probes s).flatMap Probe.checks
  | expression, c => Chain.tokens c

/-- The tree of a derivation fails with the first fault in this order. -/
theorem tree_checks {g : Goal} {source : Text} {d : g.Phrase} (h : ∀ x ∈ g.tokens d, x.Spelled) :
    Checks (g.tree source d) (g.checks d) := by
  cases g with
  | script =>
    refine (Checks.mapM fun p hp => Probe.tree_checks ?_).map _
    refine h ⟨.probeSpec, p.spec⟩ (List.mem_flatMap.2 ⟨p, hp, ?_⟩)
    rw [Probe.tokens, List.append_assoc]
    exact List.mem_cons_self
  | expression => exact (Chain.checks d).map _

private theorem mem_probe_checks {p : Probe} {t : Token} (h : t.fault? ≠ none) :
    t ∈ p.checks ↔ t ∈ p.tokens := by
  have hlbrace : t ≠ ⟨.lbrace, p.lbrace⟩ := by
    rintro rfl
    exact h rfl
  have hrbrace : t ≠ ⟨.rbrace, p.rbrace⟩ := by
    rintro rfl
    exact h rfl
  simp only [Probe.checks, Probe.tokens, List.mem_append, List.mem_cons, List.not_mem_nil, or_false,
    hlbrace, hrbrace]
  tauto

/-- The order leaves out no token that could be at fault. -/
theorem mem_checks {g : Goal} {d : g.Phrase} {t : Token} (h : t.fault? ≠ none) :
    t ∈ g.checks d ↔ t ∈ g.tokens d := by
  cases g with
  | script =>
    simp only [checks, tokens, Script.tokens, List.mem_flatMap, mem_probe_checks h]
  | expression => exact Iff.rfl

end ProbeScript.Goal
