import ProbeScript.Proofs.Goal

/-! Every phrase read in part can be completed. A sample word stands for each terminal, and the
words of a completion are set apart by spaces, so that the completion is a text as well. -/
namespace ProbeScript.Phrase

namespace Terminal

/-- A word of the terminal. -/
def sample : Terminal → Text
  | binary => "0b0".toList
  | comma => ",".toList
  | decimal => "0".toList
  | equal => "=".toList
  | hexadecimal => "0x0".toList
  | name | probeSpec => "a".toList
  | lbrace => "\x7b".toList
  | logical => "&&".toList
  | lpar => "(".toList
  | multiplicative => "*".toList
  | octal => "00".toList
  | rbrace => "\x7d".toList
  | relational => "<".toList
  | rpar => ")".toList
  | semicolon => ";".toList
  | slash => "/".toList
  | string => "\"\"".toList
  | additive => "+".toList

private theorem spells_sample (terminal : Terminal) : terminal.Spells terminal.sample := by
  have hne : terminal.sample ≠ [] := by cases terminal <;> decide
  have hword : terminal.word terminal.sample = terminal.sample := by cases terminal <;> decide
  exact (takes_iff.2 ⟨hne, hword⟩).spells

/-- The sample words of the terminals, each before a space. -/
def sampleText (terminals : List Terminal) : Text := terminals.flatMap fun t => t.sample ++ [' ']

/-- The tokens of this text, if its first character stands at the index. -/
def sampleTokens : (index : Nat) → List Terminal → List Token
  | _, [] => []
  | i, t :: ts => ⟨t, i, t.sample⟩ :: sampleTokens (i + t.sample.length + 1) ts

theorem spelled_sampleTokens (i : Nat) (terminals : List Terminal) :
    ∀ x ∈ sampleTokens i terminals, x.Spelled := by
  induction terminals generalizing i with
  | nil => simp [sampleTokens]
  | cons t ts ih => exact List.forall_mem_cons.2 ⟨t.spells_sample, ih _⟩

theorem scans_sampleText (i : Nat) (terminals : List Terminal) :
    Scans i (sampleText terminals) (sampleTokens i terminals)
      (i + (sampleText terminals).length) [] := by
  induction terminals generalizing i with
  | nil => exact .done i []
  | cons t ts ih =>
    have htakes : t.Takes (t.sample ++ ' ' :: sampleText ts) t.sample :=
      takes_append_iff.2 ⟨t.spells_sample, fun c hc => by
        obtain rfl := Option.some.inj hc
        exact goesOn_of_mem_separators (by decide)⟩
    have htext : sampleText (t :: ts) = t.sample ++ ' ' :: sampleText ts := by
      simp [sampleText]
    have hlength : i + (t.sample ++ ' ' :: sampleText ts).length =
        i + t.sample.length + 1 + (sampleText ts).length := by
      simp
      omega
    rw [htext, sampleTokens, hlength]
    refine .token htakes ?_
    rw [List.drop_left]
    exact .layout rfl (ih _)

private theorem sampleTokens_append (i : Nat) (ts us : List Terminal) : sampleTokens i (ts ++ us) =
    sampleTokens i ts ++ sampleTokens (i + (sampleText ts).length) us := by
  induction ts generalizing i with
  | nil => rfl
  | cons t ts ih =>
    have hlength : i + t.sample.length + 1 + (sampleText ts).length =
        i + (sampleText (t :: ts)).length := by
      simp [sampleText]
      omega
    rw [List.cons_append, sampleTokens, sampleTokens, ih, hlength, List.cons_append]

/-- No comment begins in a row of sample words. -/
theorem kept_sampleText (terminals : List Terminal) : Segment.Kept (sampleText terminals) := by
  induction terminals with
  | nil => exact .nil
  | cons t ts ih =>
    rw [sampleText, List.flatMap_cons]
    refine .append ?_ ih
    have hspace : Segment.Kept [' '] := .char rfl (by decide)
    have hword (h : ∀ c ∈ t.sample, Segment.inAlphabet c = true ∧ c ≠ '/') :
        Segment.Kept (t.sample ++ [' ']) := (Segment.Kept.word h).append hspace
    cases t
    case slash => exact hspace.slash (by decide) (by decide)
    case string => exact (Segment.Kept.string (t := []) (by simp)).append hspace
    all_goals exact hword (Text.forall_mem_of_all (by decide))

end Terminal

/-! What a phrase read in part is going to be. -/

mutual

def Hole.goal : Hole → Goal
  | .alone => .expression
  | .guard .. | .assigned .. => .script
  | .group before _ => before.goal
  | .argument call => call.goal

def Before.goal : Before → Goal
  | .start hole | .joined hole _ _ => hole.goal

def OpenCall.goal : OpenCall → Goal
  | .operand before .. => before.goal
  | .statement .. => .script

end

namespace Partial
variable {p q : Partial} {t : Token}

def goal : Partial → Goal
  | probeDue _ | afterSpec _ | statementDue _ | afterStatementName .. | afterStatementCall .. =>
    .script
  | operandDue before | afterOperand before _ => before.goal
  | valueDue call .. | afterValue call .. | afterTuple call _ => call.goal

end Partial

private theorem Before.goal_hole (b : Before) : b.hole.goal = b.goal := by cases b <;> rfl

namespace OpenCall

private theorem goal_add (call : OpenCall) (a : Arg) (comma : Lexeme) :
    (call.add a comma).goal = call.goal := by
  cases call <;> rfl

private theorem goal_closed (call : OpenCall) (c : Call) : (call.closed c).goal = call.goal := by
  cases call <;> rfl

end OpenCall

namespace Partial
variable {p q : Partial} {t : Token} {ts : List Token}

private theorem Step.goal_eq (h : Step p t q) : q.goal = p.goal := by
  cases h with
  | @endAssign _ before _ _ _ _ h =>
    show Goal.script = before.goal
    rw [← before.goal_hole, h]
    rfl
  | @closeGroup before outer _ _ _ h =>
    show outer.goal = before.goal
    rw [← before.goal_hole, h]
    rfl
  | @nextAfterChain before call _ _ h =>
    show (call.add _ _).goal = before.goal
    rw [call.goal_add, ← before.goal_hole, h]
    rfl
  | @closeAfterChain before call _ _ h =>
    show (call.close _ _).goal = before.goal
    rw [call.close_eq, call.goal_closed, ← before.goal_hole, h]
    rfl
  | @join before _ _ _ _ _ => exact before.goal_hole
  | closeBare => exact OpenCall.goal_closed _ _
  | nextAfterTuple call => exact call.goal_add _ _
  | closeAfterTuple call =>
    rw [call.close_eq]
    exact call.goal_closed _
  | _ => rfl

theorem run_goal (hs : ∀ x ∈ ts, x.Spelled) (h : p.run ts = some q) : q.goal = p.goal := by
  induction ts generalizing p with
  | nil =>
    obtain rfl := Option.some.inj h
    rfl
  | cons x ts ih =>
    obtain ⟨p', hp', h'⟩ := run_cons.1 h
    obtain ⟨hx, hts⟩ := List.forall_mem_cons.1 hs
    rw [ih hts h', (step_of_advance hx hp').goal_eq]

theorem goal_initial (g : Goal) : g.initial.goal = g := by cases g <;> rfl

/-- Only a script goes on with an event specification. -/
private theorem goal_of_awaits_probeSpec (h : p.Awaits .probeSpec) : p.goal = .script := by
  have := h.mem_alternatives
  cases p <;> simp [alternatives] at this
  rfl

/-- The phrase is one that a text may end with. -/
def Complete (p : Partial) : Prop := ∃ g d, p = Goal.final g d

/-- The terminals complete the phrase, wherever their words stand. -/
def Ends (p : Partial) (terminals : List Terminal) : Prop :=
  ∀ i, ∃ q, p.run (Terminal.sampleTokens i terminals) = some q ∧ q.Complete

private theorem Ends.nil (h : p.Complete) : p.Ends [] := fun _ => ⟨p, rfl, h⟩

private theorem Ends.cons {terminal : Terminal} {terminals : List Terminal}
    (h : ∀ i, ∃ q, p.advance ⟨terminal, i, terminal.sample⟩ = some q ∧ q.Ends terminals) :
    p.Ends (terminal :: terminals) := by
  intro i
  obtain ⟨q, hq, hends⟩ := h i
  obtain ⟨r, hr, hcomplete⟩ := hends (i + terminal.sample.length + 1)
  exact ⟨r, run_step hq hr, hcomplete⟩

theorem goal_final {g : Goal} (d : g.Phrase) : (g.final d).goal = g := by
  cases g with
  | script => rfl
  | expression =>
    show (Chain.before .alone d).goal = .expression
    rw [← Before.goal_hole, Chain.before_hole]
    rfl

theorem Complete.finish (h : p.Complete) : ∃ d, p.goal.finish p = some d := by
  obtain ⟨g, d, rfl⟩ := h
  rw [goal_final]
  exact ⟨d, Goal.finish_eq_some_iff.2 rfl⟩

end Partial

namespace OpenBody

private theorem exists_close {b : OpenBody} (h : b.done ≠ []) (l : Lexeme) :
    ∃ first others, b.close? l = some (first :: others) := by
  obtain ⟨probe, guard, lbrace, _ | ⟨s, done⟩⟩ := b
  · exact absurd rfl h
  · obtain ⟨first, others, hprobes⟩ := List.exists_cons_of_ne_nil
      (show probe.before ++ [⟨probe.spec, guard, lbrace, s, done, l⟩] ≠ [] by simp)
    exact ⟨first, others, congrArg some hprobes⟩

end OpenBody

/-! The completions. -/

/-- A body of one statement after its opening brace. -/
def bodyEnding : List Terminal := [.name, .lpar, .rpar, .semicolon, .rbrace]

mutual

/-- What completes a phrase after a chain that was read for the hole. -/
def Hole.ending : Hole → List Terminal
  | .alone => []
  | .guard .. => .slash :: .lbrace :: bodyEnding
  | .assigned .. => [.semicolon, .rbrace]
  | .group before _ => .rpar :: before.ending
  | .argument call => .rpar :: call.ending

/-- What completes a phrase after an operand. -/
def Before.ending : Before → List Terminal
  | .start hole | .joined hole _ _ => hole.ending

/-- What completes a phrase after a call has been closed. -/
def OpenCall.ending : OpenCall → List Terminal
  | .operand before .. => before.ending
  | .statement .. => [.semicolon, .rbrace]

end

/-- What completes a phrase. -/
def Partial.ending : Partial → List Terminal
  | .probeDue [] => .probeSpec :: .lbrace :: bodyEnding
  | .probeDue (_ :: _) => []
  | .afterSpec _ => .lbrace :: bodyEnding
  | .statementDue body => if body.done.isEmpty then bodyEnding else [.rbrace]
  | .afterStatementName .. => [.lpar, .rpar, .semicolon, .rbrace]
  | .afterStatementCall .. => [.semicolon, .rbrace]
  | .operandDue before => .name :: before.ending
  | .afterOperand before _ => before.ending
  | .valueDue call .. => .name :: .rpar :: .rpar :: call.ending
  | .afterValue call .. => .rpar :: .rpar :: call.ending
  | .afterTuple call _ => .rpar :: call.ending

namespace Partial

private theorem ends_probes (first : Probe) (others : List Probe) :
    (probeDue (first :: others)).Ends [] :=
  .nil ⟨.script, (⟨first, others⟩ : Script), rfl⟩

private theorem ends_statements {body : OpenBody} (h : body.done ≠ []) :
    (statementDue body).Ends [.rbrace] := by
  refine .cons fun i => ?_
  obtain ⟨first, others, hclose⟩ := OpenBody.exists_close h ⟨i, Terminal.rbrace.sample⟩
  refine ⟨probeDue (first :: others), ?_, ends_probes first others⟩
  rw [advance, hclose]
  rfl

private theorem ends_statement (body : OpenBody) (s : Statement) :
    (statementDue (body.add s)).Ends [.rbrace] :=
  ends_statements (by simp [OpenBody.add])

private theorem ends_call (body : OpenBody) (c : Call) :
    (afterStatementCall body c).Ends [.semicolon, .rbrace] :=
  .cons fun _ => ⟨_, rfl, ends_statement body _⟩

private theorem ends_body (body : OpenBody) : (statementDue body).Ends bodyEnding :=
  .cons fun _ => ⟨_, rfl, .cons fun _ => ⟨_, rfl, .cons fun _ => ⟨_, rfl, ends_call body _⟩⟩⟩

end Partial

open Partial

mutual

private theorem Hole.ends {b : Before} (o : Operand) : (h : Hole) → b.hole = h →
    (afterOperand b o).Ends h.ending
  | .alone, hb => by
    refine .nil ⟨.expression, b.chain o, ?_⟩
    show _ = afterOperand ((b.chain o).before .alone) (b.chain o).last
    rw [← hb, b.chain_before, b.chain_last]
  | .guard probe opening, hb => by
    refine .cons fun i => ?_
    have hop : Operator.ofSymbol? Terminal.slash.sample = some .divide := by decide
    refine ⟨operandDue (.joined (.guard probe opening) (b.chain o) ⟨.divide, i⟩), ?_, ?_⟩
    · simp [advance, finishOperand, hb, join, hop]
    · exact .cons fun _ => ⟨_, rfl, ends_body _⟩
  | .assigned body target equal, hb => by
    refine .cons fun i => ⟨statementDue (body.add (.assignment target equal (b.chain o)
      ⟨i, Terminal.semicolon.sample⟩)), ?_, ends_statement body _⟩
    simp only [advance, finishOperand, hb]
  | .group before lpar, hb => by
    refine .cons fun i => ⟨afterOperand before
      (.group lpar (b.chain o) ⟨i, Terminal.rpar.sample⟩), ?_, before.ends _⟩
    simp only [advance, finishOperand, hb]
  | .argument call, hb => by
    refine .cons fun i => ⟨call.close (.chain (b.chain o)) ⟨i, Terminal.rpar.sample⟩, ?_, ?_⟩
    · simp only [advance, finishOperand, hb]
    · rw [call.close_eq]
      exact call.ends _

private theorem Before.ends (o : Operand) : (b : Before) → (afterOperand b o).Ends b.ending
  | .start hole => hole.ends o rfl
  | .joined hole _ _ => hole.ends o rfl

private theorem OpenCall.ends (c : Call) : (call : OpenCall) → (call.closed c).Ends call.ending
  | .operand before .. => before.ends (.call c)
  | .statement body .. => ends_call body c

end

private theorem Partial.ends_closed {p : Partial} {call : OpenCall}
    (h : ∀ l, ∃ c, p.advance ⟨.rpar, l⟩ = some (call.closed c)) :
    p.Ends (.rpar :: call.ending) := by
  refine .cons fun i => ?_
  obtain ⟨c, hc⟩ := h ⟨i, Terminal.rpar.sample⟩
  exact ⟨call.closed c, hc, call.ends c⟩

private theorem Partial.ends_tuple (call : OpenCall) (a : Arg) :
    (afterTuple call a).Ends (.rpar :: call.ending) :=
  ends_closed fun l => ⟨_, by rw [advance, call.close_eq]⟩

private theorem Partial.ends_value (call : OpenCall) (lpar comma : Lexeme) (init : Values)
    (last : Value) : (afterValue call lpar init comma last).Ends (.rpar :: .rpar :: call.ending) :=
  .cons fun _ => ⟨_, rfl, ends_tuple call _⟩

/-- Every phrase read in part can be completed. -/
theorem Partial.ends (p : Partial) : p.Ends p.ending := by
  cases p with
  | probeDue done =>
    cases done with
    | nil => exact .cons fun _ => ⟨_, rfl, .cons fun _ => ⟨_, rfl, ends_body _⟩⟩
    | cons first others => exact ends_probes first others
  | afterSpec probe => exact .cons fun _ => ⟨_, rfl, ends_body _⟩
  | statementDue body =>
    rw [ending]
    split
    case isTrue => exact ends_body body
    case isFalse h => exact ends_statements (by simpa using h)
  | afterStatementName body name =>
    exact .cons fun _ => ⟨_, rfl, .cons fun _ => ⟨_, rfl, ends_call body _⟩⟩
  | afterStatementCall body call => exact ends_call body call
  | operandDue before =>
    refine .cons fun i => ⟨afterOperand before (.value (.name ⟨i, Terminal.name.sample⟩)), ?_, ?_⟩
    · rfl
    · exact before.ends _
  | afterOperand before o => exact before.ends o
  | valueDue call lpar init comma =>
    exact .cons fun _ => ⟨_, rfl, ends_value call lpar comma init _⟩
  | afterValue call lpar init comma last => exact ends_value call lpar comma init last
  | afterTuple call arg => exact ends_tuple call arg

namespace Partial

/-- The terminals complete the phrase from the index on, and the first of them is the next of its
tokens. -/
def EndsAfter (p : Partial) (i : Nat) (terminal : Terminal) (terminals : List Terminal) : Prop :=
  ∃ q, p.run (Terminal.sampleTokens i (terminal :: terminals)) = some q ∧ q.Complete ∧
    q.tokens[p.tokens.length]? = some ⟨terminal, i, terminal.sample⟩

/-- A token that stands next after some of the words stays there. -/
private theorem endsAfter_of_run {p q : Partial} {i : Nat} {terminal : Terminal}
    {terminals : List Terminal}
    (hq : p.run (Terminal.sampleTokens i (terminal :: terminals)) = some q)
    (hx : q.tokens[p.tokens.length]? = some ⟨terminal, i, terminal.sample⟩) :
    p.EndsAfter i terminal (terminals ++ q.ending) := by
  obtain ⟨r, hr, hcomplete⟩ := q.ends (i + (Terminal.sampleText (terminal :: terminals)).length)
  refine ⟨r, ?_, hcomplete, run_settled (Terminal.spelled_sampleTokens _ _) hr hx ?_⟩
  · rw [← List.cons_append, Terminal.sampleTokens_append]
    exact run_trans hq hr
  · intro hslash hterminal
    obtain rfl : terminal = .multiplicative := hterminal
    cases hslash

/-- A slash after an operand ends a predicate if a brace comes next. -/
private theorem endsAfter_slash {before : Before} {o : Operand} {probe : OpenProbe}
    {opening : Lexeme} (h : before.hole = .guard probe opening) (i : Nat) :
    ∃ terminals, (afterOperand before o).EndsAfter i .slash terminals := by
  have hop : Operator.ofSymbol? Terminal.slash.sample = some .divide := by decide
  have hslash : (afterOperand before o).advance ⟨.slash, i, Terminal.slash.sample⟩ =
      some (operandDue (.joined (.guard probe opening) (before.chain o) ⟨.divide, i⟩)) := by
    simp [advance, finishOperand, h, join, hop]
  have hbrace : (afterOperand before o).run (Terminal.sampleTokens i [.slash, .lbrace]) = some _ :=
    run_step hslash (run_last rfl)
  have htokens : (afterOperand before o).tokens =
      probe.tokens ++ ⟨.slash, opening⟩ :: (before.chain o).tokens := by
    rw [tokens, before.tokens_append, h, Hole.tokens, List.append_assoc, List.singleton_append]
  refine ⟨_, endsAfter_of_run hbrace ?_⟩
  rw [htokens]
  simp [tokens, OpenBody.tokens, Guard.tokens]
  rfl

/-- Whatever the phrase waits for, it can be completed from there. -/
theorem exists_endsAfter {p : Partial} {terminal : Terminal} (h : p.Awaits terminal) (i : Nat) :
    ∃ terminals, p.EndsAfter i terminal terminals := by
  obtain ⟨q, hq⟩ := exists_advance (t := ⟨terminal, i, terminal.sample⟩) terminal.spells_sample h
  have hgrows :=
    (step_of_advance (t := ⟨terminal, i, terminal.sample⟩) terminal.spells_sample hq).grows
  have hrun : p.run (Terminal.sampleTokens i [terminal]) = some q := run_last hq
  by_cases hslash : terminal = .slash
  · subst hslash
    cases p with
    | afterSpec probe =>
      obtain rfl := Option.some.inj hq
      refine ⟨_, endsAfter_of_run hrun ?_⟩
      simp [tokens, Before.tokens, Hole.tokens]
    | afterOperand before o =>
      obtain ⟨probe, opening, hguard⟩ := h.exists_guard
      exact endsAfter_slash hguard i
    | _ =>
      have hmem := h.mem_alternatives
      simp [alternatives] at hmem
  · exact ⟨_, endsAfter_of_run hrun (hgrows.getElem?_last hslash)⟩

end Partial
end ProbeScript.Phrase

namespace ProbeScript.Goal
open Phrase

/-- Only in a script are there event specifications. -/
theorem script_of_probeSpec {g : Goal} {d : g.Phrase} (h : ∀ x ∈ g.tokens d, x.Spelled)
    {y : Token} (hy : y ∈ g.tokens d) (hterminal : y.terminal = .probeSpec) : g = .script := by
  have hrun := run_tokens h
  obtain ⟨pre, post, he⟩ := List.append_of_mem hy
  rw [he] at hrun h
  obtain ⟨p, hp, hrest⟩ := Partial.run_append.1 hrun
  obtain ⟨q, hq, -⟩ := Partial.run_cons.1 hrest
  obtain ⟨hpre, hpost⟩ := List.forall_mem_append.1 h
  have ha := Partial.awaits_of_advance (hpost y List.mem_cons_self) hq
  rw [hterminal] at ha
  rw [← Partial.goal_initial g, ← Partial.run_goal hpre hp, Partial.goal_of_awaits_probeSpec ha]

end ProbeScript.Goal
