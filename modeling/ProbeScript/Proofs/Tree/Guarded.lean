import ProbeScript.Proofs.Tree.Spec
import ProbeScript.Tree.Checked

/-! Trees built the careful way: parts first, every symbol looked up, operands counted against
operators, and each tuple, event specification and probe checked when it is made. A phrase gives
none of these checks anything to find, so the tree built is the tree of the phrase. -/
namespace ProbeScript

/-- What may go wrong when a tree is built. -/
inductive BuildError
  | fault (f : Phrase.TreeFault)
  | shape (e : ShapeError)
  /-- The operators are not one fewer than the operands. -/
  | miscounted
  deriving DecidableEq, Repr

abbrev Building := Except BuildError

namespace Node

def guardedTuple (values : List Node) (span : Option Span) : Building Node :=
  (checkedTuple values span).mapError .shape

/-- An argument made a tuple where it is a single value in parentheses. -/
def guardedArgument : Node → Building Node
  | .parenthesized inner span =>
    match inner.kind with
    | .identifier | .integer | .string => guardedTuple [inner] span
    | _ => .ok (.parenthesized inner span)
  | n => .ok n

/-- Operands with the symbols between them, grouped. -/
def guardedGrouping (operands : List Node) (symbols : List Text) : Building Node := do
  let operators ← symbols.mapM fun s => (Operator.checked s).mapError .shape
  match grouped? operands operators with
  | none => .error .miscounted
  | some n => .ok n

end Node

namespace Phrase
open Node

variable (source : Text)

def Value.build (v : Value) : Building Node := (v.tree source).mapError .fault

def Values.build : Values → Building (List Node)
  | .one v => return [← v.build source]
  | .more init _ last => do
    let ns ← init.build
    return ns ++ [← last.build source]

mutual

def Operand.build : Operand → Building Node
  | .value v => v.build source
  | .group lpar inner rpar => do
    let (ns, symbols) ← inner.build
    return .parenthesized (← guardedGrouping ns symbols) (lpar.through source rpar)
  | .call c => c.build

/-- The operands and the symbols between them. -/
def Chain.build : Chain → Building (List Node × List Text)
  | .one o => return ([← o.build], [])
  | .more init joint last => do
    let (ns, symbols) ← init.build
    return (ns ++ [← last.build], symbols ++ [joint.op.symbol])

def Call.build : Call → Building Node
  | .bare name _ rpar => return .call name.text [] (name.through source rpar)
  | .applied name _ args rpar => do
    let ns ← args.build
    return .call name.text (← ns.mapM guardedArgument) (name.through source rpar)

def Args.build : Args → Building (List Node)
  | .one a => return [← a.build]
  | .more init _ last => do
    let ns ← init.build
    return ns ++ [← last.build]

def Arg.build : Arg → Building Node
  | .chain c => do
    let (ns, symbols) ← c.build
    guardedGrouping ns symbols
  | .tuple lpar init _ last rpar => do
    let ns ← init.build source
    guardedTuple (ns ++ [← last.build source]) (lpar.through source rpar)

end

def Chain.buildTree (c : Chain) : Building Node := do
  let (ns, symbols) ← c.build source
  guardedGrouping ns symbols

def Statement.build : Statement → Building Node
  | .assignment target _ value _ =>
    return .assignment (.identifier target.text (target.span source)) (← value.buildTree source)
      (target.through source value.final)
  | .call c _ => c.build source

def buildSpec (spec : Lexeme) : Building Node :=
  match ProbeSpec.split? spec.text with
  | none => .error (.fault (.malformedSpec spec.start spec.text))
  | some parts => (checkedSpec parts (spec.span source)).mapError .shape

def Probe.build (p : Probe) : Building Node := do
  let predicate ← p.guard.mapM (·.predicate.buildTree source)
  let body ← p.statements.mapM (Statement.build source)
  let event ← buildSpec source p.spec
  (checkedProbe event predicate body (p.spec.through source p.rbrace)).mapError .shape

def Script.build (s : Script) : Building Node :=
  return .script (← s.probes.mapM (Probe.build source))
    (s.first.spec.through source (s.others.getLastD s.first).rbrace)

end Phrase

/-! None of the checks fails. -/

namespace Node

private theorem guardedTuple_eq {values : List Node} (h : values ≠ []) (span : Option Span) :
    guardedTuple values span = .ok (.tuple values span) := by
  obtain ⟨n, ns, rfl⟩ := List.exists_cons_of_ne_nil h
  rfl

private theorem guardedArgument_eq (n : Node) : guardedArgument n = .ok (Phrase.asArgument n) := by
  cases n with
  | parenthesized inner => cases inner <;> rfl
  | _ => rfl

private theorem mapM_guardedArgument (ns : List Node) :
    ns.mapM guardedArgument = .ok (ns.map Phrase.asArgument) := by
  induction ns with
  | nil => rfl
  | cons n ns ih =>
    rw [List.mapM_cons, guardedArgument_eq, ih]
    rfl

private theorem mapM_checked (ops : List Operator) :
    (ops.map Operator.symbol).mapM (fun s => (Operator.checked s).mapError BuildError.shape) =
      .ok ops := by
  induction ops with
  | nil => rfl
  | cons op ops ih =>
    have hop : Operator.checked op.symbol = .ok op := by
      rw [Operator.checked, Operator.ofSymbol?_symbol]
    rw [List.map_cons, List.mapM_cons, hop, ih]
    rfl

end Node

namespace Phrase
open Node

variable {source : Text}

/-- The operands and symbols are those of the grouping. -/
inductive Joins : List Node × List Text → Grouping Node → Prop
  | one (n : Node) : Joins ([n], []) (.operand n)
  | more {ns : List Node} {symbols : List Text} {g : Grouping Node} (op : Operator) (n : Node) :
      Joins (ns, symbols) g → Joins (ns ++ [n], symbols ++ [op.symbol]) (g.attach op n)

private theorem Joins.exists_ofList {p : List Node × List Text} {g : Grouping Node}
    (h : Joins p g) : ∃ (first : Node) (rest : List Node) (ops : List Operator),
      p = (first :: rest, ops.map Operator.symbol) ∧ rest.length = ops.length ∧
        g = Grouping.ofList first (ops.zip rest) := by
  induction h with
  | one n => exact ⟨n, [], [], rfl, rfl, rfl⟩
  | more op n _ ih =>
    obtain ⟨first, rest, ops, he, hlen, rfl⟩ := ih
    obtain ⟨rfl, rfl⟩ := Prod.mk.inj he
    refine ⟨first, rest ++ [n], ops ++ [op], ?_, by simp [hlen], ?_⟩
    · rw [List.map_append]
      rfl
    · rw [List.zip_append hlen.symm, Grouping.ofList, Grouping.ofList, List.foldl_append]
      rfl

private theorem Joins.guardedGrouping_eq {ns : List Node} {symbols : List Text} {g : Grouping Node}
    (h : Joins (ns, symbols) g) : guardedGrouping ns symbols = .ok g.node := by
  obtain ⟨first, rest, ops, he, hlen, rfl⟩ := h.exists_ofList
  obtain ⟨rfl, rfl⟩ := Prod.mk.inj he
  rw [guardedGrouping, mapM_checked]
  simp only [bind, Except.bind, grouped?, if_pos hlen]

/-- What is built stands in the relation to what the other computation makes, and the faults are the
same. -/
inductive Agrees {α β : Type} (R : α → β → Prop) : Building α → Fallible β → Prop
  | ok {a : α} {b : β} : R a b → Agrees R (.ok a) (.ok b)
  | error (f : TreeFault) : Agrees R (.error (.fault f)) (.error f)

namespace Agrees
variable {α β γ δ : Type} {R : α → β → Prop} {S : γ → δ → Prop} {e : Building α} {e' : Fallible β}

private theorem bind {f : α → Building γ} {f' : β → Fallible δ} (h : Agrees R e e')
    (hf : ∀ a b, R a b → Agrees S (f a) (f' b)) : Agrees S (e >>= f) (e' >>= f') := by
  cases h with
  | ok hab => exact hf _ _ hab
  | error f => exact .error f

/-- Nothing but the fault of the other computation goes wrong. -/
theorem eq_mapError {e : Building α} {e' : Fallible α} (h : Agrees (· = ·) e e') :
    e = e'.mapError .fault := by
  cases h with
  | ok hab => rw [hab]; rfl
  | error f => rfl

private theorem of_mapError (e : Fallible α) : Agrees (· = ·) (e.mapError .fault) e := by
  cases e with
  | ok a => exact .ok rfl
  | error f => exact .error f

/-- As many are built as there are parts. -/
private theorem mapM {f : α → Building γ} {f' : α → Fallible γ} {as : List α}
    (h : ∀ a ∈ as, Agrees (· = ·) (f a) (f' a)) :
    Agrees (fun cs cs' => cs = cs' ∧ cs.length = as.length) (as.mapM f) (as.mapM f') := by
  induction as with
  | nil => exact .ok ⟨rfl, rfl⟩
  | cons a as ih =>
    obtain ⟨ha, has⟩ := List.forall_mem_cons.1 h
    rw [List.mapM_cons, List.mapM_cons]
    refine ha.bind fun c c' hc => (ih has).bind fun cs cs' hcs => .ok ⟨?_, ?_⟩
    · rw [hc, hcs.1]
    · rw [List.length_cons, List.length_cons, hcs.2]

end Agrees

private theorem Values.build_agrees (vs : Values) :
    Agrees (· = ·) (vs.build source) (vs.tree source) := by
  induction vs with
  | one v => exact (Agrees.of_mapError _).bind fun n m h => .ok (by rw [h])
  | more init comma last ih =>
    exact ih.bind fun ns ms hs => (Agrees.of_mapError _).bind fun n m h => .ok (by rw [hs, h])

/-- The nodes are those of the arguments before they are made tuples. -/
def Raw (ns ms : List Node) : Prop := ns.map asArgument = ms

mutual

private theorem Operand.build_agrees :
    (o : Operand) → Agrees (· = ·) (o.build source) (o.tree source)
  | .value v => .of_mapError _
  | .group lpar inner rpar => inner.build_agrees.bind fun (ns, symbols) g hg => by
    dsimp only
    rw [hg.guardedGrouping_eq]
    exact .ok rfl
  | .call c => c.build_agrees

private theorem Chain.build_agrees : (c : Chain) → Agrees Joins (c.build source) (c.grouping source)
  | .one o => o.build_agrees.bind fun n _ h => .ok (h ▸ .one n)
  | .more init joint last => init.build_agrees.bind fun _ _ hg =>
    last.build_agrees.bind fun n _ h => .ok (h ▸ .more joint.op n hg)

private theorem Call.build_agrees : (c : Call) → Agrees (· = ·) (c.build source) (c.tree source)
  | .bare name lpar rpar => .ok rfl
  | .applied name lpar args rpar => args.build_agrees.bind fun ns ms h => by
    rw [mapM_guardedArgument, show ns.map asArgument = ms from h]
    exact .ok rfl

private theorem Args.build_agrees : (as : Args) → Agrees Raw (as.build source) (as.tree source)
  | .one a => a.build_agrees.bind fun n m h => .ok (congrArg (fun m => [m]) h)
  | .more init comma last => init.build_agrees.bind fun ns ms hs =>
    last.build_agrees.bind fun n m h => .ok (by
      rw [Raw, List.map_append, show ns.map asArgument = ms from hs]
      exact congrArg (fun m => ms ++ [m]) h)

private theorem Arg.build_agrees : (a : Arg) →
    Agrees (fun n m => asArgument n = m) (a.build source) (a.tree source)
  | .chain c => c.build_agrees.bind fun (ns, symbols) g hg => by
    dsimp only
    rw [hg.guardedGrouping_eq]
    exact .ok rfl
  | .tuple lpar init comma last rpar => init.build_agrees.bind fun ns ms hs =>
    (Agrees.of_mapError _).bind fun n m h => by
      rw [guardedTuple_eq (by simp), hs, h]
      exact .ok rfl

end

theorem Chain.buildTree_agrees (c : Chain) :
    Agrees (· = ·) (c.buildTree source) (c.tree source) :=
  c.build_agrees.bind fun (ns, symbols) g hg => by
    dsimp only
    rw [hg.guardedGrouping_eq]
    exact .ok rfl

private theorem Statement.build_agrees (s : Statement) :
    Agrees (· = ·) (s.build source) (s.tree source) := by
  cases s with
  | assignment target equal value semicolon =>
    exact value.buildTree_agrees.bind fun n m h => .ok (by rw [h])
  | call c semicolon => exact c.build_agrees

/-- A specification is split into as many parts as it may have. -/
private theorem buildSpec_agrees (spec : Lexeme) :
    Agrees (· = ·) (buildSpec source spec) (specNode source spec) := by
  rw [buildSpec, specNode]
  cases h : ProbeSpec.split? spec.text with
  | none => exact .error _
  | some parts =>
    have hcount : 1 ≤ parts.length ∧ parts.length ≤ 4 := by
      rw [ProbeSpec.split?] at h
      split at h
      case isFalse => cases h
      case isTrue hspec =>
        obtain rfl := Option.some.inj h
        rw [List.length_map, Text.length_pieces]
        omega
    have hchecked : checkedSpec parts (spec.span source) = .ok (.spec parts (spec.span source)) :=
      if_pos hcount
    simp only [hchecked]
    exact .ok rfl

private theorem Probe.build_agrees (p : Probe) :
    Agrees (· = ·) (p.build source) (p.tree source) := by
  have hguard : Agrees (· = ·) (p.guard.mapM (·.predicate.buildTree source))
      (p.guard.mapM (·.predicate.tree source)) := by
    cases p.guard with
    | none => exact .ok rfl
    | some g => exact g.predicate.buildTree_agrees.bind fun n m h => .ok (by rw [h])
  have hstatement (s : Statement) (_ : s ∈ p.statements) :
      Agrees (· = ·) (s.build source) (s.tree source) := s.build_agrees
  have hbody := Agrees.mapM hstatement
  refine hguard.bind fun q q' hq => hbody.bind fun ns ms hs => ?_
  refine (buildSpec_agrees p.spec).bind fun n m h => ?_
  obtain ⟨rfl, hlen⟩ := hs
  cases ns with
  | nil => cases hlen
  | cons first others =>
    rw [hq, h]
    exact .ok rfl

theorem Script.build_agrees (s : Script) : Agrees (· = ·) (s.build source) (s.tree source) :=
  (Agrees.mapM fun p _ => p.build_agrees).bind fun ns ms h => .ok (by rw [h.1])

end Phrase
end ProbeScript
