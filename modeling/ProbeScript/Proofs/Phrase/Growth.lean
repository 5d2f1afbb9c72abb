import ProbeScript.Proofs.Phrase.Reader

/-! The steps of a phrase read in part, case by case, and the tokens that it has been read from. A
slash that turns out to end a predicate is the only token that a later one changes. -/
namespace ProbeScript.Phrase

namespace OpenCall

def name : OpenCall → Lexeme
  | operand _ name _ _ | statement _ name _ _ => name

def lpar : OpenCall → Lexeme
  | operand _ _ lpar _ | statement _ _ lpar _ => lpar

/-- What the call is read into once it is complete. -/
def closed (c : Call) : OpenCall → Partial
  | operand before _ _ _ => .afterOperand before (.call c)
  | statement body _ _ _ => .afterStatementCall body c

theorem close_eq (call : OpenCall) (a : Arg) (rpar : Lexeme) : call.close a rpar =
    call.closed (.applied call.name call.lpar (.extend call.done a) rpar) := by
  cases call <;> rfl

private theorem closeBare?_eq_some {call : OpenCall} {rpar : Lexeme} {q : Partial} :
    call.closeBare? rpar = some q ↔
      call.done = none ∧ call.closed (.bare call.name call.lpar rpar) = q := by
  rcases call with ⟨_, _, _, _ | _⟩ | ⟨_, _, _, _ | _⟩ <;>
    simp [closeBare?, done, closed, name, lpar]

end OpenCall

namespace Partial

/-- What one token does to a phrase read in part. -/
inductive Step : Partial → Token → Partial → Prop
  | spec (done : List Probe) (l : Lexeme) :
    Step (probeDue done) ⟨.probeSpec, l⟩ (afterSpec ⟨done, l⟩)
  | openGuard (probe : OpenProbe) (l : Lexeme) :
    Step (afterSpec probe) ⟨.slash, l⟩ (operandDue (.start (.guard probe l)))
  | openBody (probe : OpenProbe) (l : Lexeme) :
    Step (afterSpec probe) ⟨.lbrace, l⟩ (statementDue ⟨probe, none, l, []⟩)
  | closeGuard (probe : OpenProbe) (opening l : Lexeme) (predicate : Chain) (i : Nat) :
    Step (operandDue (.joined (.guard probe opening) predicate ⟨.divide, i⟩)) ⟨.lbrace, l⟩
      (statementDue ⟨probe, some ⟨opening, predicate, i, Operator.divide.symbol⟩, l, []⟩)
  | statement (body : OpenBody) (l : Lexeme) :
    Step (statementDue body) ⟨.name, l⟩ (afterStatementName body l)
  | closeBody {body : OpenBody} {l : Lexeme} {probes : List Probe} :
    body.close? l = some probes → Step (statementDue body) ⟨.rbrace, l⟩ (probeDue probes)
  | assign (body : OpenBody) (name l : Lexeme) :
    Step (afterStatementName body name) ⟨.equal, l⟩ (operandDue (.start (.assigned body name l)))
  | endAssign {body : OpenBody} {before : Before} {target equal : Lexeme} (o : Operand)
    (l : Lexeme) : before.hole = .assigned body target equal →
      Step (afterOperand before o) ⟨.semicolon, l⟩
        (statementDue (body.add (.assignment target equal (before.chain o) l)))
  | callStatement (body : OpenBody) (name l : Lexeme) :
    Step (afterStatementName body name) ⟨.lpar, l⟩
      (operandDue (.start (.argument (.statement body name l none))))
  | endCall (body : OpenBody) (call : Call) (l : Lexeme) :
    Step (afterStatementCall body call) ⟨.semicolon, l⟩ (statementDue (body.add (.call call l)))
  | value (before : Before) (v : Value) :
    Step (operandDue before) v.token (afterOperand before (.value v))
  | openGroup (before : Before) (l : Lexeme) :
    Step (operandDue before) ⟨.lpar, l⟩ (operandDue (.start (.group before l)))
  | closeGroup {before outer : Before} {lpar : Lexeme} (o : Operand) (l : Lexeme) :
    before.hole = .group outer lpar →
      Step (afterOperand before o) ⟨.rpar, l⟩ (afterOperand outer (.group lpar (before.chain o) l))
  | join {before : Before} {o : Operand} {t : Token} {op : Operator} :
    t.lexeme.text = op.symbol → (t.terminal = .ofOperator op ∨ t.terminal = .slash ∧ op = .divide) →
      Step (afterOperand before o) t
        (operandDue (.joined before.hole (before.chain o) ⟨op, t.lexeme.start⟩))
  | callOperand (before : Before) (name l : Lexeme) :
    Step (afterOperand before (.value (.name name))) ⟨.lpar, l⟩
      (operandDue (.start (.argument (.operand before name l none))))
  | closeBare {call : OpenCall} (l : Lexeme) : call.done = none →
      Step (operandDue (.start (.argument call))) ⟨.rpar, l⟩
        (call.closed (.bare call.name call.lpar l))
  | nextAfterChain {before : Before} {call : OpenCall} (o : Operand) (l : Lexeme) :
    before.hole = .argument call → Step (afterOperand before o) ⟨.comma, l⟩
      (operandDue (.start (.argument (call.add (.chain (before.chain o)) l))))
  | closeAfterChain {before : Before} {call : OpenCall} (o : Operand) (l : Lexeme) :
    before.hole = .argument call → Step (afterOperand before o) ⟨.rpar, l⟩
      (call.close (.chain (before.chain o)) l)
  | openTuple (call : OpenCall) (lpar l : Lexeme) (v : Value) :
    Step (afterOperand (.start (.group (.start (.argument call)) lpar)) (.value v)) ⟨.comma, l⟩
      (valueDue call lpar (.one v) l)
  | tupleValue (call : OpenCall) (lpar comma : Lexeme) (init : Values) (v : Value) :
    Step (valueDue call lpar init comma) v.token (afterValue call lpar init comma v)
  | nextValue (call : OpenCall) (lpar comma l : Lexeme) (init : Values) (v : Value) :
    Step (afterValue call lpar init comma v) ⟨.comma, l⟩ (valueDue call lpar (.more init comma v) l)
  | closeTuple (call : OpenCall) (lpar comma l : Lexeme) (init : Values) (v : Value) :
    Step (afterValue call lpar init comma v) ⟨.rpar, l⟩
      (afterTuple call (.tuple lpar init comma v l))
  | nextAfterTuple (call : OpenCall) (arg : Arg) (l : Lexeme) :
    Step (afterTuple call arg) ⟨.comma, l⟩ (operandDue (.start (.argument (call.add arg l))))
  | closeAfterTuple (call : OpenCall) (arg : Arg) (l : Lexeme) :
    Step (afterTuple call arg) ⟨.rpar, l⟩ (call.close arg l)

variable {p q : Partial} {t : Token}

private theorem ofToken?_eq_some {v : Value} (h : Value.ofToken? t = some v) : v.token = t := by
  obtain ⟨terminal, l⟩ := t
  cases terminal <;> cases h <;> rfl

private theorem step_startOperand {before : Before} (h : startOperand before t = some q) :
    Step (operandDue before) t q := by
  obtain ⟨terminal, l⟩ := t
  unfold startOperand at h
  split at h
  case h_1 ht =>
    obtain rfl : terminal = .lpar := ht
    obtain rfl := Option.some.inj h
    exact .openGroup _ _
  case h_2 call ht =>
    obtain rfl : terminal = .rpar := ht
    obtain ⟨hdone, rfl⟩ := OpenCall.closeBare?_eq_some.1 h
    exact .closeBare _ hdone
  case h_3 ht =>
    obtain rfl : terminal = .lbrace := ht
    obtain rfl := Option.some.inj h
    exact .closeGuard ..
  case h_4 =>
    obtain ⟨v, hv, rfl⟩ := Option.map_eq_some_iff.1 h
    rw [← ofToken?_eq_some hv]
    exact .value _ _

private theorem step_join {before : Before} {o : Operand} (ht : t.Spelled)
    (hmem : t.terminal ∈ [.logical, .relational, .additive, .multiplicative, .slash])
    (h : Partial.join before.hole (before.chain o) t = some q) :
    Step (afterOperand before o) t q := by
  obtain ⟨op, hop⟩ := ht.exists_symbol hmem
  rw [Partial.join, hop, Operator.ofSymbol?_symbol] at h
  obtain rfl := Option.some.inj h
  refine .join hop ?_
  obtain ⟨terminal, l⟩ := t
  have hof (o : Operator) (ho : terminal = .ofOperator o) : terminal = .ofOperator op := by
    subst ho
    obtain ⟨o', ho', hw⟩ := Terminal.spells_ofOperator ht
    obtain rfl := Operator.symbol_inj (hop.symm.trans hw)
    exact ho'.symm
  simp only [List.mem_cons, List.not_mem_nil, or_false] at hmem
  rcases hmem with rfl | rfl | rfl | rfl | rfl
  · exact .inl (hof .and rfl)
  · exact .inl (hof .eq rfl)
  · exact .inl (hof .add rfl)
  · exact .inl (hof .divide rfl)
  · have hw : l.text = ['/'] := Terminal.spells_punctuation rfl ht
    exact .inr ⟨rfl, Operator.symbol_inj (hop.symm.trans hw)⟩

private theorem step_finishOperand {before : Before} {o : Operand} (ht : t.Spelled)
    (h : finishOperand before o t = some q) : Step (afterOperand before o) t q := by
  obtain ⟨terminal, l⟩ := t
  unfold finishOperand at h
  split at h
  case h_11 ht' =>
    obtain rfl : terminal = .lpar := ht'
    split at h
    case h_1 =>
      obtain rfl := Option.some.inj h
      exact .callOperand ..
    case h_2 => cases h
  case h_10 ht' hhole =>
    obtain rfl : terminal = .comma := ht'
    split at h
    case h_1 v hv =>
      obtain rfl := Option.some.inj h
      rcases before with hole | ⟨hole, init, joint⟩
      · obtain rfl : hole = _ := hhole
        obtain rfl : o = .value v := Chain.one.inj hv
        exact .openTuple ..
      · cases hv
    case h_2 => cases h
  case h_12 => cases h
  case h_5 ht' hhole =>
    obtain rfl : terminal = .slash := ht'
    rw [← hhole] at h
    exact step_join ht (by simp) h
  case h_6 ht' hhole =>
    obtain rfl : terminal = .semicolon := ht'
    obtain rfl := Option.some.inj h
    exact .endAssign _ _ hhole
  case h_7 ht' hhole =>
    obtain rfl : terminal = .rpar := ht'
    obtain rfl := Option.some.inj h
    exact .closeGroup _ _ hhole
  case h_8 ht' hhole =>
    obtain rfl : terminal = .rpar := ht'
    obtain rfl := Option.some.inj h
    exact .closeAfterChain _ _ hhole
  case h_9 ht' hhole =>
    obtain rfl : terminal = .comma := ht'
    obtain rfl := Option.some.inj h
    exact .nextAfterChain _ _ hhole
  all_goals
    rename_i ht'
    exact step_join ht (by rw [ht']; simp) h

theorem step_of_advance (ht : t.Spelled) (h : p.advance t = some q) : Step p t q := by
  cases p with
  | operandDue before => exact step_startOperand h
  | afterOperand before o => exact step_finishOperand ht h
  | valueDue call lpar init comma =>
    obtain ⟨v, hv, rfl⟩ := Option.map_eq_some_iff.1 h
    rw [← ofToken?_eq_some hv]
    exact .tupleValue ..
  | statementDue body =>
    obtain ⟨terminal, l⟩ := t
    cases terminal
    case name =>
      obtain rfl := Option.some.inj h
      exact .statement _ _
    case rbrace =>
      obtain ⟨probes, hprobes, rfl⟩ := Option.map_eq_some_iff.1 h
      exact .closeBody hprobes
    all_goals cases h
  | _ =>
    obtain ⟨terminal, l⟩ := t
    cases terminal <;> cases h <;> constructor

end Partial

/-! The tokens of what has been read. -/

/-- The tokens of the arguments read before a comma. -/
def argumentTokens (done : Option (Args × Lexeme)) : List Token :=
  done.elim [] fun (args, comma) => args.tokens ++ [⟨.comma, comma⟩]

def OpenProbe.tokens (p : OpenProbe) : List Token :=
  p.before.flatMap Probe.tokens ++ [⟨.probeSpec, p.spec⟩]

def OpenBody.tokens (b : OpenBody) : List Token :=
  b.probe.tokens ++ b.guard.elim [] Guard.tokens ++ ⟨.lbrace, b.lbrace⟩ ::
    b.done.flatMap Statement.tokens

mutual

def Hole.tokens : Hole → List Token
  | .alone => []
  | .guard probe opening => probe.tokens ++ [⟨.slash, opening⟩]
  | .assigned body target equal => body.tokens ++ [⟨.name, target⟩, ⟨.equal, equal⟩]
  | .group before lpar => before.tokens ++ [⟨.lpar, lpar⟩]
  | .argument call => call.tokens

def Before.tokens : Before → List Token
  | .start hole => hole.tokens
  | .joined hole init joint => hole.tokens ++ init.tokens ++ [joint.token]

def OpenCall.tokens : OpenCall → List Token
  | .operand before name lpar done =>
    before.tokens ++ ⟨.name, name⟩ :: ⟨.lpar, lpar⟩ :: argumentTokens done
  | .statement body name lpar done =>
    body.tokens ++ ⟨.name, name⟩ :: ⟨.lpar, lpar⟩ :: argumentTokens done

end

def Partial.tokens : Partial → List Token
  | .probeDue done => done.flatMap Probe.tokens
  | .afterSpec probe => probe.tokens
  | .statementDue body => body.tokens
  | .afterStatementName body name => body.tokens ++ [⟨.name, name⟩]
  | .afterStatementCall body call => body.tokens ++ call.tokens
  | .operandDue before => before.tokens
  | .afterOperand before o => before.tokens ++ o.tokens
  | .valueDue call lpar init comma =>
    call.tokens ++ ⟨.lpar, lpar⟩ :: init.tokens ++ [⟨.comma, comma⟩]
  | .afterValue call lpar init comma last =>
    call.tokens ++ ⟨.lpar, lpar⟩ :: init.tokens ++ [⟨.comma, comma⟩, last.token]
  | .afterTuple call arg => call.tokens ++ arg.tokens

theorem Before.tokens_append (b : Before) (o : Operand) :
    b.tokens ++ o.tokens = b.hole.tokens ++ (b.chain o).tokens := by
  cases b <;> simp [Before.tokens, hole, chain, Chain.tokens]

/-- The tokens of the arguments with one more at the end. -/
private theorem Args.tokens_extend (done : Option (Args × Lexeme)) (a : Arg) :
    (Args.extend done a).tokens = argumentTokens done ++ a.tokens := by
  cases done <;> simp [extend, argumentTokens, Args.tokens]

namespace OpenCall

private theorem tokens_add (call : OpenCall) (a : Arg) (comma : Lexeme) :
    (call.add a comma).tokens = call.tokens ++ a.tokens ++ [⟨.comma, comma⟩] := by
  cases call <;> simp [add, tokens, argumentTokens, Args.tokens_extend]

private theorem tokens_close (call : OpenCall) (a : Arg) (rpar : Lexeme) :
    (call.close a rpar).tokens = call.tokens ++ a.tokens ++ [⟨.rpar, rpar⟩] := by
  cases call <;>
    simp [close, tokens, Partial.tokens, Operand.tokens, Call.tokens, Args.tokens_extend]

private theorem tokens_closed_bare {call : OpenCall} (h : call.done = none) (rpar : Lexeme) :
    (call.closed (.bare call.name call.lpar rpar)).tokens = call.tokens ++ [⟨.rpar, rpar⟩] := by
  cases call <;> obtain rfl := h <;>
    simp [closed, tokens, Partial.tokens, Operand.tokens, Call.tokens, argumentTokens, name, lpar]

end OpenCall

private theorem OpenBody.tokens_close {b : OpenBody} {rbrace : Lexeme} {probes : List Probe}
    (h : b.close? rbrace = some probes) :
    probes.flatMap Probe.tokens = b.tokens ++ [⟨.rbrace, rbrace⟩] := by
  obtain ⟨probe, guard, lbrace, _ | ⟨first, others⟩⟩ := b
  · cases h
  · obtain rfl := Option.some.inj h
    simp [OpenBody.tokens, OpenProbe.tokens, Probe.tokens, Probe.statements]

/-- How one more token changes the tokens of what has been read. -/
inductive Grows : List Token → Token → List Token → Prop
  | append (ts : List Token) (t : Token) : Grows ts t (ts ++ [t])
  /-- A slash after an operand is first read as an operator. -/
  | divide (ts : List Token) {l : Lexeme} : l.text = ['/'] →
    Grows ts ⟨.slash, l⟩ (ts ++ [⟨.multiplicative, l⟩])
  /-- Before a brace an operator turns out to be the slash that ends a predicate. -/
  | close (ts : List Token) {l l' : Lexeme} : l.text = ['/'] →
    Grows (ts ++ [⟨.multiplicative, l⟩]) ⟨.lbrace, l'⟩ (ts ++ [⟨.slash, l⟩, ⟨.lbrace, l'⟩])

private theorem Grows.of_eq {ts us : List Token} {t : Token} (h : us = ts ++ [t]) :
    Grows ts t us := h ▸ .append ts t

theorem Partial.Step.grows {p q : Partial} {t : Token} (h : Step p t q) :
    Grows p.tokens t q.tokens := by
  cases h with
  | closeGuard probe opening l predicate i =>
    have hgrows : Grows (_ ++ [⟨.multiplicative, i, Operator.divide.symbol⟩]) ⟨.lbrace, l⟩ _ :=
      .close (probe.tokens ++ ⟨.slash, opening⟩ :: predicate.tokens) rfl
    simpa [Partial.tokens, Before.tokens, Hole.tokens, OpenBody.tokens, Guard.tokens, Joint.token,
      Terminal.ofOperator] using hgrows
  | @join before o t op hop ht =>
    obtain ⟨terminal, start, text⟩ := t
    obtain rfl : text = op.symbol := hop
    rw [Partial.tokens, Partial.tokens, Before.tokens, Before.tokens_append]
    rcases ht with ht | ⟨ht, rfl⟩
    · obtain rfl : terminal = .ofOperator op := ht
      exact .append _ _
    · obtain rfl : terminal = .slash := ht
      exact .divide _ rfl
  | closeBody h => exact .of_eq (OpenBody.tokens_close h)
  | closeBare l h => exact .of_eq (OpenCall.tokens_closed_bare h l)
  | endAssign o l h =>
    apply Grows.of_eq
    rw [Partial.tokens, Partial.tokens, Before.tokens_append, h]
    simp [OpenBody.tokens, OpenBody.add, Hole.tokens, Statement.tokens]
  | @closeGroup before _ _ o l h =>
    apply Grows.of_eq
    rw [Partial.tokens, Partial.tokens, Before.tokens_append before, h]
    simp [Operand.tokens, Hole.tokens]
  | nextAfterChain o l h =>
    apply Grows.of_eq
    rw [Partial.tokens, Partial.tokens, Before.tokens_append, h, Before.tokens, Hole.tokens,
      Hole.tokens, OpenCall.tokens_add, Arg.tokens]
  | closeAfterChain o l h =>
    apply Grows.of_eq
    rw [Partial.tokens, Before.tokens_append, h, Hole.tokens, OpenCall.tokens_close, Arg.tokens]
  | nextAfterTuple call arg l => exact .of_eq (OpenCall.tokens_add call arg l)
  | closeAfterTuple call arg l => exact .of_eq (OpenCall.tokens_close call arg l)
  | _ =>
    apply Grows.of_eq
    simp [Partial.tokens, Before.tokens, Hole.tokens, OpenCall.tokens, OpenProbe.tokens,
      OpenBody.tokens, OpenBody.add, Operand.tokens, Statement.tokens, Arg.tokens, Values.tokens,
      Value.token, argumentTokens]

namespace Grows
variable {ts us : List Token} {t : Token}

private theorem lexemes (h : Grows ts t us) :
    us.map Token.lexeme = ts.map Token.lexeme ++ [t.lexeme] := by
  cases h <;> simp

/-- A token stays what it is, unless it is the operator of a division. -/
private theorem settled {k : Nat} {x : Token} (h : Grows ts t us) (hx : ts[k]? = some x)
    (hne : x.lexeme.text = ['/'] → x.terminal ≠ .multiplicative) : us[k]? = some x := by
  cases h with
  | append | divide => rw [List.getElem?_append_left (List.getElem?_eq_some_iff.1 hx).1, hx]
  | close ts hl =>
    rcases Nat.lt_or_ge k ts.length with hk | hk
    · rw [List.getElem?_append_left hk] at hx ⊢
      exact hx
    · rw [List.getElem?_append_right hk] at hx
      rw [List.getElem?_singleton] at hx
      split at hx
      · obtain rfl := Option.some.inj hx
        exact absurd rfl (hne hl)
      · cases hx

theorem getElem?_last (h : Grows ts t us) (hne : t.terminal ≠ .slash) :
    us[ts.length]? = some t := by
  cases h with
  | append => simp
  | divide => exact absurd rfl hne
  | close => simp

private theorem takes_slash_iff {v : Text} :
    Terminal.slash.Takes v ['/'] ↔ Terminal.multiplicative.Takes v ['/'] := by
  constructor
  · intro h
    obtain ⟨v, rfl⟩ := h.isPrefix
    exact Terminal.takes_append_iff.2 ⟨.symbol .divide, fun _ _ => rfl⟩
  · intro h
    obtain ⟨v, rfl⟩ := h.isPrefix
    exact Terminal.takes_append_iff.2 ⟨.mark rfl, fun _ _ => rfl⟩

/-- The text falls into the new tokens as it fell into the old ones. -/
private theorem scans {i j : Nat} {v w : Text} (h : Grows ts t us)
    (hs : Scans i v (ts ++ [t]) j w) :
    Scans i v us j w := by
  cases h with
  | append => exact hs
  | divide ts hl =>
    obtain ⟨k, u, hts, ht⟩ := hs.split
    exact hts.append (ht.retag fun v hv => hl ▸ takes_slash_iff.1 (hl ▸ hv))
  | close ts hl =>
    rw [List.append_assoc] at hs
    obtain ⟨k, u, hts, ht⟩ := hs.split
    exact hts.append (ht.retag fun v hv => hl ▸ takes_slash_iff.2 (hl ▸ hv))

end Grows

namespace Partial
variable {p q : Partial} {ts : List Token} {i j k : Nat} {t u v : Text}

theorem run_lexemes (hs : ∀ x ∈ ts, x.Spelled) (hr : p.run ts = some q) :
    q.tokens.map Token.lexeme = p.tokens.map Token.lexeme ++ ts.map Token.lexeme := by
  induction ts generalizing p with
  | nil =>
    obtain rfl := Option.some.inj hr
    simp
  | cons x ts ih =>
    obtain ⟨p', hp', hr'⟩ := run_cons.1 hr
    obtain ⟨hx, hts⟩ := List.forall_mem_cons.1 hs
    rw [ih hts hr', (step_of_advance hx hp').grows.lexemes, List.map_cons, List.append_assoc,
      List.singleton_append]

/-- A token stays what it is, unless it is the operator of a division. -/
theorem run_settled {x : Token} (hs : ∀ x ∈ ts, x.Spelled) (hr : p.run ts = some q)
    (hx : p.tokens[k]? = some x) (hne : x.lexeme.text = ['/'] → x.terminal ≠ .multiplicative) :
    q.tokens[k]? = some x := by
  induction ts generalizing p with
  | nil =>
    obtain rfl := Option.some.inj hr
    exact hx
  | cons y ts ih =>
    obtain ⟨p', hp', hr'⟩ := run_cons.1 hr
    obtain ⟨hy, hts⟩ := List.forall_mem_cons.1 hs
    exact ih hts hr' ((step_of_advance hy hp').grows.settled hx hne)

/-- The text falls into the tokens of the phrase that it has been read into. -/
theorem run_scans (ht : Scans i t p.tokens j u) (h : Scans j u ts k v) (hr : p.run ts = some q) :
    Scans i t q.tokens k v := by
  induction ts generalizing p j u with
  | nil =>
    obtain rfl := Option.some.inj hr
    rw [← List.append_nil p.tokens]
    exact ht.append h
  | cons x ts ih =>
    obtain ⟨p', hp', hr'⟩ := run_cons.1 hr
    have hx := h.spelled x List.mem_cons_self
    obtain ⟨j', u', hx', h'⟩ := Scans.split (show Scans j u ([x] ++ ts) k v from h)
    exact ih ((step_of_advance hx hp').grows.scans (ht.append hx')) h' hr'

end Partial
end ProbeScript.Phrase
