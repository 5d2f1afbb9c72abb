import ProbeScript.Proofs.Phrase.Growth

/-! Every phrase is read from its own tokens. By induction on the phrase, whatever it is being
read for. -/
namespace ProbeScript.Phrase

namespace Chain

/-- What stands before the last operand, when the chain is read for the hole. -/
def before (hole : Hole) : Chain → Before
  | one _ => .start hole
  | more init joint _ => .joined hole init joint

def last : Chain → Operand
  | one o | more _ _ o => o

@[simp] theorem before_hole (hole : Hole) (c : Chain) : (c.before hole).hole = hole := by
  cases c <;> rfl

@[simp] theorem before_chain (hole : Hole) (c : Chain) : (c.before hole).chain c.last = c := by
  cases c <;> rfl

end Chain

theorem Before.chain_before (b : Before) (o : Operand) : (b.chain o).before b.hole = b := by
  cases b <;> rfl

theorem Before.chain_last (b : Before) (o : Operand) : (b.chain o).last = o := by
  cases b <;> rfl

namespace Partial
variable {p q r : Partial} {ts us : List Token}

/-- The first phrase is read into the second from the tokens. -/
theorem run_trans (h : p.run ts = some q) (h' : q.run us = some r) : p.run (ts ++ us) = some r :=
  run_append.2 ⟨q, h, h'⟩

theorem run_step {t : Token} (h : p.advance t = some q) (h' : q.run ts = some r) :
    p.run (t :: ts) = some r := run_cons.2 ⟨q, h, h'⟩

theorem run_last {t : Token} (h : p.advance t = some q) : p.run [t] = some q :=
  run_step h run_nil

private theorem advance_value (before : Before) (v : Value) :
    (operandDue before).advance v.token = some (afterOperand before (.value v)) := by
  have hv := Value.ofToken?_token v
  rcases v with _ | _ | ⟨_ | _ | _ | _, _⟩ <;>
    simp_all [advance, startOperand, Value.token, Terminal.ofRadix]

private theorem advance_tupleValue (call : OpenCall) (lpar comma : Lexeme) (init : Values)
    (v : Value) : (valueDue call lpar init comma).advance v.token =
      some (afterValue call lpar init comma v) := by
  rw [advance, Value.ofToken?_token]
  rfl

private theorem advance_joint {before : Before} (o : Operand) (j : Joint) :
    (afterOperand before o).advance j.token =
      some (operandDue (.joined before.hole (before.chain o) j)) := by
  obtain ⟨op, i⟩ := j
  have hop := Operator.ofSymbol?_symbol op
  cases op <;> simp [advance, finishOperand, Joint.token, Terminal.ofOperator, join] <;> assumption

end Partial

namespace OpenCall

/-- The call with other arguments read before. -/
def withDone (done : Option (Args × Lexeme)) : OpenCall → OpenCall
  | operand before name lpar _ => operand before name lpar done
  | statement body name lpar _ => statement body name lpar done

private theorem add_eq (call : OpenCall) (a : Arg) (comma : Lexeme) :
    call.add a comma = call.withDone (some (.extend call.done a, comma)) := by
  cases call <;> rfl

@[simp] theorem withDone_done (call : OpenCall) (done : Option (Args × Lexeme)) :
    (call.withDone done).done = done := by
  cases call <;> rfl

@[simp] theorem withDone_withDone (call : OpenCall) (done done' : Option (Args × Lexeme)) :
    (call.withDone done).withDone done' = call.withDone done' := by
  cases call <;> rfl

end OpenCall

/-- The arguments have been read for the call, which may go on or be closed. -/
structure Ends (call : OpenCall) (as : Args) (q : Partial) : Prop where
  comma : ∀ l, q.advance ⟨.comma, l⟩ =
    some (.operandDue (.start (.argument (call.withDone (some (as, l))))))
  rpar : ∀ l, q.advance ⟨.rpar, l⟩ = some (call.closed (.applied call.name call.lpar as l))

private theorem Ends.of_withDone {call : OpenCall} {done : Option (Args × Lexeme)} {as : Args}
    {q : Partial} (h : Ends (call.withDone done) as q) : Ends call as q := by
  refine ⟨fun l => ?_, fun l => ?_⟩
  · rw [h.comma, OpenCall.withDone_withDone]
  · rw [h.rpar]
    cases call <;> rfl

open Partial

/-- The values of a tuple but for its last, with the comma after them. -/
private theorem run_values (call : OpenCall) (lpar comma : Lexeme) (vs : Values) :
    (operandDue (.start (.argument call))).run
      (⟨.lpar, lpar⟩ :: vs.tokens ++ [⟨.comma, comma⟩]) = some (valueDue call lpar vs comma) := by
  induction vs generalizing comma with
  | one v =>
    refine run_step rfl (run_step (advance_value _ v) (run_last ?_))
    rfl
  | more init comma' last ih =>
    have h := run_trans (ih comma') (run_step (advance_tupleValue call lpar comma' init last)
      (run_last (t := ⟨.comma, comma⟩) rfl))
    simpa [Values.tokens] using h

mutual

private theorem Operand.run_tokens (b : Before) : (o : Operand) →
    (operandDue b).run o.tokens = some (afterOperand b o)
  | .value v => run_last (advance_value b v)
  | .group lpar inner rpar => by
    rw [Operand.tokens]
    refine run_step rfl (run_trans (inner.run_tokens (.group b lpar)) (run_last ?_))
    simp [advance, finishOperand]
  | .call c => c.run_operand b

theorem Chain.run_tokens (hole : Hole) : (c : Chain) →
    (operandDue (.start hole)).run c.tokens = some (afterOperand (c.before hole) c.last)
  | .one o => o.run_tokens (.start hole)
  | .more init joint last => by
    rw [Chain.tokens]
    refine run_trans (init.run_tokens hole) (run_step (advance_joint _ joint) ?_)
    rw [Chain.before_hole, Chain.before_chain]
    exact last.run_tokens (.joined hole init joint)

private theorem Call.run_operand (b : Before) : (c : Call) →
    (operandDue b).run c.tokens = some (afterOperand b (.call c))
  | .bare name lpar rpar =>
    run_step (advance_value b (.name name)) (run_step rfl (run_last rfl))
  | .applied name lpar args rpar => by
    obtain ⟨q, hq, hends⟩ := args.run_tokens (.operand b name lpar none) rfl
    exact run_step (advance_value b (.name name))
      (run_step rfl (run_trans hq (run_last (hends.rpar rpar))))

private theorem Args.run_tokens (call : OpenCall) (h : call.done = none) : (as : Args) →
    ∃ q, (operandDue (.start (.argument call))).run as.tokens = some q ∧ Ends call as q
  | .one a => by
    obtain ⟨q, hq, hends⟩ := a.run_tokens call
    rw [h] at hends
    exact ⟨q, hq, hends⟩
  | .more init comma last => by
    obtain ⟨q, hq, hends⟩ := init.run_tokens call h
    obtain ⟨q', hq', hends'⟩ := last.run_tokens (call.withDone (some (init, comma)))
    rw [OpenCall.withDone_done] at hends'
    exact ⟨q', run_trans hq (run_step (hends.comma comma) hq'), hends'.of_withDone⟩

private theorem Arg.run_tokens (call : OpenCall) : (a : Arg) →
    ∃ q, (operandDue (.start (.argument call))).run a.tokens = some q ∧
      Ends call (.extend call.done a) q
  | .chain c => by
    refine ⟨_, c.run_tokens (.argument call), fun l => ?_, fun l => ?_⟩
    · simp [advance, finishOperand, OpenCall.add_eq]
    · simp [advance, finishOperand, OpenCall.close_eq]
  | .tuple lpar init comma last rpar => by
    refine ⟨afterTuple call (.tuple lpar init comma last rpar), ?_, fun l => ?_, fun l => ?_⟩
    · have h := run_trans (run_values call lpar comma init)
        (run_step (advance_tupleValue call lpar comma init last)
          (run_last (t := ⟨.rpar, rpar⟩) rfl))
      simpa [Arg.tokens] using h
    · simp [advance, OpenCall.add_eq]
    · simp [advance, OpenCall.close_eq]

end

private theorem Call.run_statement (body : OpenBody) (c : Call) :
    (statementDue body).run c.tokens = some (afterStatementCall body c) := by
  cases c with
  | bare name lpar rpar => exact run_step rfl (run_step rfl (run_last rfl))
  | applied name lpar args rpar =>
    obtain ⟨q, hq, hends⟩ := args.run_tokens (.statement body name lpar none) rfl
    exact run_step rfl (run_step rfl (run_trans hq (run_last (hends.rpar rpar))))

private theorem Statement.run_tokens (body : OpenBody) (s : Statement) :
    (statementDue body).run s.tokens = some (statementDue (body.add s)) := by
  cases s with
  | assignment target equal value semicolon =>
    refine run_step rfl (run_step rfl (run_trans (value.run_tokens (.assigned body target equal))
      (run_last ?_)))
    simp [advance, finishOperand]
  | call c semicolon => exact run_trans (c.run_statement body) (run_last rfl)

private theorem run_statements (body : OpenBody) (ss : List Statement) :
    (statementDue body).run (ss.flatMap Statement.tokens) =
      some (statementDue { body with done := body.done ++ ss }) := by
  induction ss generalizing body with
  | nil => simp
  | cons s ss ih =>
    rw [List.flatMap_cons]
    refine run_trans (s.run_tokens body) ?_
    rw [ih, OpenBody.add, List.append_assoc, List.singleton_append]

/-- The brace after a predicate shows that the slash before it ends the predicate. -/
private theorem run_guard (probe : OpenProbe) {g : Guard} (h : g.closing.text = ['/'])
    (lbrace : Lexeme) : (afterSpec probe).run (g.tokens ++ [⟨.lbrace, lbrace⟩]) =
      some (statementDue ⟨probe, some g, lbrace, []⟩) := by
  obtain ⟨opening, predicate, start, text⟩ := g
  obtain rfl : text = ['/'] := h
  rw [Guard.tokens, List.append_assoc]
  refine run_step rfl (run_trans (predicate.run_tokens (.guard probe opening))
    (run_step (q := operandDue (.joined (.guard probe opening) predicate ⟨.divide, start⟩)) ?_
      (run_last rfl)))
  have hop : Operator.ofSymbol? ['/'] = some .divide := Operator.ofSymbol?_symbol .divide
  simp [advance, finishOperand, join, hop]

theorem Probe.run_tokens (done : List Probe) {p : Probe} (h : ∀ x ∈ p.tokens, x.Spelled) :
    (probeDue done).run p.tokens = some (probeDue (done ++ [p])) := by
  obtain ⟨spec, guard, lbrace, first, others, rbrace⟩ := p
  have hbody (g : Option Guard) : (statementDue ⟨⟨done, spec⟩, g, lbrace, []⟩).run
      ((first :: others).flatMap Statement.tokens ++ [⟨.rbrace, rbrace⟩]) =
      some (probeDue (done ++ [⟨spec, g, lbrace, first, others, rbrace⟩])) :=
    run_trans (run_statements _ _) (run_last rfl)
  cases guard with
  | none => exact run_step rfl (run_step rfl (hbody none))
  | some g =>
    have htokens : Probe.tokens ⟨spec, some g, lbrace, first, others, rbrace⟩ =
        ⟨.probeSpec, spec⟩ :: (g.tokens ++ [⟨.lbrace, lbrace⟩] ++
          ((first :: others).flatMap Statement.tokens ++ [⟨.rbrace, rbrace⟩])) := by
      simp [Probe.tokens, Probe.statements]
    rw [htokens] at h ⊢
    have hclosing : Terminal.slash.Spells g.closing.text :=
      h ⟨.slash, g.closing⟩ (by simp [Guard.tokens])
    exact run_step rfl (run_trans
      (run_guard _ (Terminal.spells_punctuation rfl hclosing) lbrace) (hbody (some g)))

theorem Script.run_tokens (done : List Probe) {ps : List Probe}
    (h : ∀ x ∈ ps.flatMap Probe.tokens, x.Spelled) :
    (probeDue done).run (ps.flatMap Probe.tokens) = some (probeDue (done ++ ps)) := by
  induction ps generalizing done with
  | nil => simp
  | cons p ps ih =>
    rw [List.flatMap_cons] at h ⊢
    rw [List.forall_mem_append] at h
    refine run_trans (p.run_tokens done h.1) ?_
    rw [ih (done ++ [p]) h.2, List.append_assoc, List.singleton_append]

end ProbeScript.Phrase
