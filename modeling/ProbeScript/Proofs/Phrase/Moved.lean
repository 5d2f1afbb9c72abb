import ProbeScript.Proofs.Fault

/-! Phrases further on in a text. Moving a phrase adds a number to the index of each of its words.
What the reader does with a text does not depend on where the text stands nor on the probes read
before it: it goes through the moved phrases, and stops in the moved place. -/
namespace ProbeScript.Phrase

variable (k : Nat)

def Lexeme.moved (l : Lexeme) : Lexeme := ⟨k + l.start, l.text⟩

def Token.moved (t : Token) : Token := ⟨t.terminal, t.lexeme.moved k⟩

def Joint.moved (j : Joint) : Joint := ⟨j.op, k + j.start⟩

def Value.moved : Value → Value
  | .name word => .name (word.moved k)
  | .string word => .string (word.moved k)
  | .integer radix word => .integer radix (word.moved k)

def Values.moved : Values → Values
  | .one v => .one (v.moved k)
  | .more init comma last => .more init.moved (comma.moved k) (last.moved k)

mutual

def Operand.moved : Operand → Operand
  | .value v => .value (v.moved k)
  | .group lpar inner rpar => .group (lpar.moved k) inner.moved (rpar.moved k)
  | .call c => .call c.moved

def Chain.moved : Chain → Chain
  | .one o => .one o.moved
  | .more init joint last => .more init.moved (joint.moved k) last.moved

def Call.moved : Call → Call
  | .bare name lpar rpar => .bare (name.moved k) (lpar.moved k) (rpar.moved k)
  | .applied name lpar args rpar =>
    .applied (name.moved k) (lpar.moved k) args.moved (rpar.moved k)

def Args.moved : Args → Args
  | .one a => .one a.moved
  | .more init comma last => .more init.moved (comma.moved k) last.moved

def Arg.moved : Arg → Arg
  | .chain c => .chain c.moved
  | .tuple lpar init comma last rpar =>
    .tuple (lpar.moved k) (init.moved k) (comma.moved k) (last.moved k) (rpar.moved k)

end

def Statement.moved : Statement → Statement
  | .assignment target equal value semicolon =>
    .assignment (target.moved k) (equal.moved k) (value.moved k) (semicolon.moved k)
  | .call c semicolon => .call (c.moved k) (semicolon.moved k)

def Guard.moved (g : Guard) : Guard :=
  ⟨g.opening.moved k, g.predicate.moved k, g.closing.moved k⟩

def Probe.moved (p : Probe) : Probe where
  spec := p.spec.moved k
  guard := p.guard.map (Guard.moved k)
  lbrace := p.lbrace.moved k
  first := p.first.moved k
  others := p.others.map (Statement.moved k)
  rbrace := p.rbrace.moved k

/-! The tokens of a moved phrase are those of the phrase, moved. -/

private theorem Value.token_moved (v : Value) : (v.moved k).token = v.token.moved k := by
  cases v <;> rfl

private theorem Values.tokens_moved (vs : Values) :
    (vs.moved k).tokens = vs.tokens.map (Token.moved k) := by
  induction vs with
  | one v => simp [moved, tokens, Value.token_moved]
  | more init comma last ih => simp [moved, tokens, ih, Value.token_moved, Token.moved]

mutual

private theorem Operand.tokens_moved :
    (o : Operand) → (o.moved k).tokens = o.tokens.map (Token.moved k)
  | .value v => by simp [Operand.moved, Operand.tokens, Value.token_moved]
  | .group lpar inner rpar => by
    simp [Operand.moved, Operand.tokens, inner.tokens_moved, Token.moved]
  | .call c => c.tokens_moved

private theorem Chain.tokens_moved : (c : Chain) → (c.moved k).tokens = c.tokens.map (Token.moved k)
  | .one o => o.tokens_moved
  | .more init joint last => by
    simp [Chain.moved, Chain.tokens, init.tokens_moved, last.tokens_moved, Joint.token, Joint.moved,
      Token.moved, Lexeme.moved]

private theorem Call.tokens_moved : (c : Call) → (c.moved k).tokens = c.tokens.map (Token.moved k)
  | .bare name lpar rpar => rfl
  | .applied name lpar args rpar => by
    simp [Call.moved, Call.tokens, args.tokens_moved, Token.moved]

private theorem Args.tokens_moved :
    (as : Args) → (as.moved k).tokens = as.tokens.map (Token.moved k)
  | .one a => a.tokens_moved
  | .more init comma last => by
    simp [Args.moved, Args.tokens, init.tokens_moved, last.tokens_moved, Token.moved]

private theorem Arg.tokens_moved : (a : Arg) → (a.moved k).tokens = a.tokens.map (Token.moved k)
  | .chain c => c.tokens_moved
  | .tuple lpar init comma last rpar => by
    simp [Arg.moved, Arg.tokens, Values.tokens_moved, Value.token_moved, Token.moved]

end

private theorem Statement.tokens_moved (s : Statement) :
    (s.moved k).tokens = s.tokens.map (Token.moved k) := by
  cases s <;> simp [moved, tokens, Chain.tokens_moved, Call.tokens_moved, Token.moved]

private theorem Guard.tokens_moved (g : Guard) :
    (g.moved k).tokens = g.tokens.map (Token.moved k) := by
  simp [moved, tokens, Chain.tokens_moved, Token.moved]

theorem Probe.tokens_moved (p : Probe) : (p.moved k).tokens = p.tokens.map (Token.moved k) := by
  obtain ⟨spec, guard, lbrace, first, others, rbrace⟩ := p
  cases guard <;> simp [moved, tokens, statements, Guard.tokens_moved, Statement.tokens_moved,
    List.flatMap_map, List.map_flatMap, Token.moved]

theorem Scans.shift {i j : Nat} {t u : Text} {ts : List Token} (h : Scans i t ts j u) :
    Scans (k + i) t (ts.map (Token.moved k)) (k + j) u := by
  induction h with
  | done i t => exact .done (k + i) t
  | layout hc _ ih => exact .layout hc ih
  | token hw _ ih =>
    rw [← Nat.add_assoc] at ih
    exact .token hw ih

/-! A moved phrase has the faults of the phrase. -/

def TreeFault.moved : TreeFault → TreeFault
  | digits count => digits count
  | malformedSpec index spec => malformedSpec (k + index) spec

private theorem Token.fault?_moved (t : Token) :
    (t.moved k).fault? = t.fault?.map (TreeFault.moved k) := by
  obtain ⟨terminal, l⟩ := t
  cases terminal
  case decimal | probeSpec =>
    simp only [fault?, moved, Lexeme.moved, apply_ite (Option.map (TreeFault.moved k))]
    rfl
  all_goals rfl

theorem findSome?_moved (ts : List Token) : (ts.map (Token.moved k)).findSome? Token.fault? =
    (ts.findSome? Token.fault?).map (TreeFault.moved k) := by
  rw [List.findSome?_map, List.map_findSome?]
  congr 1
  funext t
  exact t.fault?_moved k

theorem Probe.checks_moved (p : Probe) : (p.moved k).checks = p.checks.map (Token.moved k) := by
  obtain ⟨spec, guard, lbrace, first, others, rbrace⟩ := p
  cases guard <;> simp [moved, checks, statements, Guard.tokens_moved, Statement.tokens_moved,
    List.flatMap_map, List.map_flatMap, Token.moved]

/-! A phrase read in part, after other probes. -/

variable (ps : List Probe)

def OpenProbe.moved (p : OpenProbe) : OpenProbe :=
  ⟨ps ++ p.before.map (Probe.moved k), p.spec.moved k⟩

def OpenBody.moved (b : OpenBody) : OpenBody where
  probe := b.probe.moved k ps
  guard := b.guard.map (Guard.moved k)
  lbrace := b.lbrace.moved k
  done := b.done.map (Statement.moved k)

/-- The arguments read before, with the comma after them. -/
def movedArgs (done : Option (Args × Lexeme)) : Option (Args × Lexeme) :=
  done.map fun (as, comma) => (as.moved k, comma.moved k)

mutual

def Hole.moved : Hole → Hole
  | .alone => .alone
  | .guard probe opening => .guard (probe.moved k ps) (opening.moved k)
  | .assigned body target equal => .assigned (body.moved k ps) (target.moved k) (equal.moved k)
  | .group before lpar => .group before.moved (lpar.moved k)
  | .argument call => .argument call.moved

def Before.moved : Before → Before
  | .start hole => .start hole.moved
  | .joined hole init joint => .joined hole.moved (init.moved k) (joint.moved k)

def OpenCall.moved : OpenCall → OpenCall
  | .operand before name lpar done =>
    .operand before.moved (name.moved k) (lpar.moved k) (movedArgs k done)
  | .statement body name lpar done =>
    .statement (body.moved k ps) (name.moved k) (lpar.moved k) (movedArgs k done)

end

def Partial.moved : Partial → Partial
  | .probeDue done => .probeDue (ps ++ done.map (Probe.moved k))
  | .afterSpec probe => .afterSpec (probe.moved k ps)
  | .statementDue body => .statementDue (body.moved k ps)
  | .afterStatementName body name => .afterStatementName (body.moved k ps) (name.moved k)
  | .afterStatementCall body call => .afterStatementCall (body.moved k ps) (call.moved k)
  | .operandDue before => .operandDue (before.moved k ps)
  | .afterOperand before o => .afterOperand (before.moved k ps) (o.moved k)
  | .valueDue call lpar init comma =>
    .valueDue (call.moved k ps) (lpar.moved k) (init.moved k) (comma.moved k)
  | .afterValue call lpar init comma last =>
    .afterValue (call.moved k ps) (lpar.moved k) (init.moved k) (comma.moved k) (last.moved k)
  | .afterTuple call arg => .afterTuple (call.moved k ps) (arg.moved k)

@[simp] theorem Before.hole_moved (b : Before) : (b.moved k ps).hole = b.hole.moved k ps := by
  cases b <;> simp [Before.moved, hole]

@[simp] theorem Before.chain_moved (b : Before) (o : Operand) :
    (b.moved k ps).chain (o.moved k) = (b.chain o).moved k := by
  cases b <;> simp [Before.moved, chain, Chain.moved]

private theorem Args.extend_moved (done : Option (Args × Lexeme)) (a : Arg) :
    Args.extend (movedArgs k done) (a.moved k) = (Args.extend done a).moved k := by
  cases done <;> simp [movedArgs, extend, Args.moved]

@[simp] theorem OpenCall.done_moved (call : OpenCall) :
    (call.moved k ps).done = movedArgs k call.done := by
  cases call <;> simp [OpenCall.moved, done]

private theorem OpenCall.add_moved (call : OpenCall) (a : Arg) (comma : Lexeme) :
    (call.moved k ps).add (a.moved k) (comma.moved k) = (call.add a comma).moved k ps := by
  cases call <;> simp only [OpenCall.moved, add, Args.extend_moved] <;> rfl

private theorem OpenCall.close_moved (call : OpenCall) (a : Arg) (rpar : Lexeme) :
    (call.moved k ps).close (a.moved k) (rpar.moved k) = (call.close a rpar).moved k ps := by
  cases call <;> simp [OpenCall.moved, close, Args.extend_moved, Partial.moved, Operand.moved,
    Call.moved]

private theorem OpenCall.closeBare?_moved (call : OpenCall) (rpar : Lexeme) :
    (call.moved k ps).closeBare? (rpar.moved k) =
      (call.closeBare? rpar).map (Partial.moved k ps) := by
  rcases call with ⟨_, _, _, _ | _⟩ | ⟨_, _, _, _ | _⟩ <;>
    simp [OpenCall.moved, closeBare?, movedArgs, Partial.moved, Operand.moved, Call.moved]

private theorem OpenBody.add_moved (b : OpenBody) (s : Statement) :
    (b.moved k ps).add (s.moved k) = (b.add s).moved k ps := by
  simp [OpenBody.moved, add]

private theorem OpenBody.close?_moved (b : OpenBody) (rbrace : Lexeme) :
    (b.moved k ps).close? (rbrace.moved k) =
      (b.close? rbrace).map fun done => ps ++ done.map (Probe.moved k) := by
  rcases b with ⟨probe, guard, lbrace, _ | ⟨first, others⟩⟩ <;>
    simp [OpenBody.moved, OpenProbe.moved, close?, Probe.moved]

/-! What is waited for does not depend on places or on other probes. -/

private theorem Before.waiting_moved (b : Before) : (b.moved k ps).waiting = b.waiting := by
  rcases b with (_ | _ | _ | _ | call) | ⟨_ | _ | _ | _ | _, _, op, i⟩
  case start.argument => simp [Before.moved, Hole.moved, waiting, movedArgs]
  case joined.guard => cases op <;> simp [Before.moved, Hole.moved, Joint.moved, waiting]
  all_goals simp [Before.moved, Hole.moved, waiting]

private theorem Hole.waiting_moved (h : Hole) : (h.moved k ps).waiting = h.waiting := by
  cases h <;> simp [Hole.moved, waiting]

private theorem Operand.waiting_moved (b : Before) (o : Operand) :
    (o.moved k).waiting (b.moved k ps) = o.waiting b := by
  rcases o with (_ | _ | _) | _ | _
  case group | call => simp [Operand.moved, waiting]
  all_goals
    rcases b with (_ | _ | _ | ⟨(_ | _ | _ | _ | _) | _, _⟩ | _) | _ <;>
      simp [Operand.moved, Value.moved, Before.moved, Hole.moved, waiting]

namespace Partial

theorem waiting_moved (p : Partial) : (p.moved k ps).waiting = p.waiting := by
  cases p with
  | operandDue before => simp [Partial.moved, waiting, Before.waiting_moved]
  | afterOperand before o =>
    simp [Partial.moved, waiting, Operand.waiting_moved, Hole.waiting_moved]
  | statementDue body => simp [Partial.moved, waiting, OpenBody.moved]
  | _ => simp [Partial.moved, waiting]

private theorem ofToken?_moved (t : Token) :
    Value.ofToken? (t.moved k) = (Value.ofToken? t).map (Value.moved k) := by
  obtain ⟨terminal, l⟩ := t
  cases terminal <;> rfl

private theorem startOperand_moved (b : Before) (t : Token) :
    startOperand (b.moved k ps) (t.moved k) = (startOperand b t).map (Partial.moved k ps) := by
  have hvalue := ofToken?_moved k t
  obtain ⟨terminal, l⟩ := t
  cases terminal
  case lpar => simp [startOperand, Token.moved, Partial.moved, Before.moved, Hole.moved]
  case rpar =>
    rcases b with (_ | _ | _ | _ | call) | _
    case start.argument => exact call.closeBare?_moved k ps l
    all_goals rfl
  case lbrace =>
    rcases b with _ | ⟨_ | _ | _ | _ | _, _, op, i⟩
    case joined.guard => cases op <;> rfl
    all_goals rfl
  all_goals
    simp [startOperand, hvalue]
    rfl

private theorem join_moved (hole : Hole) (c : Chain) (t : Token) :
    join (hole.moved k ps) (c.moved k) (t.moved k) = (join hole c t).map (Partial.moved k ps) := by
  rw [join, join, Option.map_map]
  rfl

private theorem finishOperand_moved (b : Before) (o : Operand) (t : Token) :
    finishOperand (b.moved k ps) (o.moved k) (t.moved k) =
      (finishOperand b o t).map (Partial.moved k ps) := by
  have hjoin := join_moved k ps b.hole (b.chain o) t
  rw [← b.hole_moved k ps, ← b.chain_moved k ps o] at hjoin
  obtain ⟨terminal, l⟩ := t
  cases terminal
  case logical | relational | additive | multiplicative => exact hjoin
  case slash =>
    cases hhole : b.hole
    case guard =>
      rw [hhole] at hjoin
      simpa [finishOperand, Token.moved, hhole, Hole.moved] using hjoin
    all_goals simp [finishOperand, Token.moved, hhole, Hole.moved]
  case semicolon =>
    cases hhole : b.hole
    case assigned =>
      simp [finishOperand, Token.moved, hhole, Hole.moved, Partial.moved, ← OpenBody.add_moved,
        Statement.moved]
    all_goals simp [finishOperand, Token.moved, hhole, Hole.moved]
  case rpar =>
    cases hhole : b.hole
    case group => simp [finishOperand, Token.moved, hhole, Hole.moved, Partial.moved, Operand.moved]
    case argument call =>
      have hclose := call.close_moved k ps (.chain (b.chain o)) l
      simpa [finishOperand, Token.moved, hhole, Hole.moved, Arg.moved] using hclose
    all_goals simp [finishOperand, Token.moved, hhole, Hole.moved]
  case comma =>
    cases hhole : b.hole
    case argument call =>
      have hadd := call.add_moved k ps (.chain (b.chain o)) l
      simpa [finishOperand, Token.moved, hhole, Hole.moved, Partial.moved, Before.moved, Arg.moved]
        using hadd
    case group outer lpar =>
      rcases outer with (_ | _ | _ | _ | call) | _
      case start.argument =>
        rcases hchain : b.chain o with (_ | _ | _) | _ <;>
          simp [finishOperand, Token.moved, hhole, hchain, Hole.moved, Before.moved, Chain.moved,
            Operand.moved, Partial.moved, Values.moved]
      all_goals simp [finishOperand, Token.moved, hhole, Hole.moved, Before.moved]
    all_goals simp [finishOperand, Token.moved, hhole, Hole.moved]
  case lpar =>
    rcases o with (_ | _ | _) | _ | _ <;>
      simp [finishOperand, Token.moved, Operand.moved, Value.moved, Partial.moved, Before.moved,
        Hole.moved, OpenCall.moved, movedArgs]
  all_goals simp [finishOperand, Token.moved]

private theorem advance_moved (p : Partial) (t : Token) :
    (p.moved k ps).advance (t.moved k) = (p.advance t).map (moved k ps) := by
  obtain ⟨terminal, l⟩ := t
  cases p with
  | operandDue before => exact startOperand_moved k ps before ⟨terminal, l⟩
  | afterOperand before o => exact finishOperand_moved k ps before o ⟨terminal, l⟩
  | valueDue call lpar init comma =>
    simp [advance, Partial.moved, ofToken?_moved]
    rfl
  | statementDue body =>
    cases terminal
    case rbrace => simp [advance, Partial.moved, Token.moved, OpenBody.close?_moved]; rfl
    all_goals rfl
  | afterStatementCall body call =>
    cases terminal
    case semicolon =>
      simp [advance, Partial.moved, Token.moved, ← OpenBody.add_moved, Statement.moved]
    all_goals rfl
  | afterTuple call arg =>
    cases terminal
    case comma =>
      simp [advance, Partial.moved, Token.moved, Before.moved, Hole.moved, OpenCall.add_moved]
    case rpar => simp [advance, Partial.moved, Token.moved, OpenCall.close_moved]
    all_goals rfl
  | probeDue | afterSpec | afterStatementName | afterValue => cases terminal <;> rfl

/-! The reader. -/

private theorem longest_map (ts : List Token) :
    longest (ts.map (Token.moved k)) = (longest ts).map (Token.moved k) := by
  induction ts with
  | nil => rfl
  | cons t ts ih =>
    rw [List.map_cons, longest, ih, longest]
    cases longest ts with
    | none => rfl
    | some u =>
      simp only [Option.map_some]
      by_cases h : u.lexeme.text.length ≤ t.lexeme.text.length
      · have hmoved : (u.moved k).lexeme.text.length ≤ (t.moved k).lexeme.text.length := h
        rw [if_pos h, if_pos hmoved]
        rfl
      · have hmoved : ¬ (u.moved k).lexeme.text.length ≤ (t.moved k).lexeme.text.length := h
        rw [if_neg h, if_neg hmoved]
        rfl

private theorem candidates_moved (p : Partial) (i : Nat) (t : Text) :
    (p.moved k ps).candidates (k + i) t = (p.candidates i t).map (Token.moved k) := by
  rw [candidates, candidates, waiting_moved, List.filter_map, List.filter_map, List.map_map]
  rfl

private theorem next?_moved (p : Partial) (i : Nat) (t : Text) : (p.moved k ps).next? (k + i) t =
    (p.next? i t).map fun (x, q) => (x.moved k, q.moved k ps) := by
  rw [next?, next?, candidates_moved, longest_map]
  cases longest (p.candidates i t) with
  | none => rfl
  | some x =>
    simp only [Option.map_some, advance_moved, Option.map_map]
    rfl

/-- The reader does the same with a text wherever it stands, after whatever probes. -/
theorem read_moved (p : Partial) (i passing : Nat) (t : Text) :
    (p.moved k ps).read (k + i) passing t =
      ((p.read i passing t).map (moved k ps)).mapError fun (j, q) => (k + j, q.moved k ps) := by
  induction t generalizing p i passing with
  | nil =>
    rw [read, read]
    rfl
  | cons c rest ih =>
    cases passing with
    | succ passing =>
      rw [read, read]
      exact ih p (i + 1) passing
    | zero =>
      rw [read, read, next?_moved]
      by_cases hc : Text.isLayout c = true
      · rw [if_pos hc, if_pos hc]
        exact ih p (i + 1) 0
      · rw [if_neg hc, if_neg hc]
        cases p.next? i (c :: rest) with
        | none => rfl
        | some x => exact ih x.2 (i + 1) (x.1.lexeme.text.length - 1)

end Partial
end ProbeScript.Phrase
