import ProbeScript.Proofs.Phrase.Scan
import ProbeScript.Phrase.Reading

/-! One step of a phrase read in part: the terminals it waits for are those it can go on with. -/
namespace ProbeScript.Phrase

theorem Value.ofToken?_isSome_iff {t : Token} :
    (Value.ofToken? t).isSome ↔ t.terminal ∈ Item.values.map Item.terminal := by
  obtain ⟨terminal, l⟩ := t
  cases terminal <;> simp [Value.ofToken?, Item.values]

namespace Partial

/-- The phrase waits for the terminal. -/
def Awaits (p : Partial) (terminal : Terminal) : Prop := terminal ∈ p.waiting.map Item.terminal

instance (p : Partial) : DecidablePred p.Awaits := fun _ => inferInstanceAs (Decidable (_ ∈ _))

private theorem operandDue_awaits_iff {before : Before} {t : Token} :
    (operandDue before).Awaits t.terminal ↔ (startOperand before t).isSome := by
  obtain ⟨terminal, l⟩ := t
  have hvalues := Value.ofToken?_isSome_iff (t := ⟨terminal, l⟩)
  unfold startOperand
  split
  case h_1 ht =>
    obtain rfl : terminal = .lpar := ht
    simp [Awaits, waiting, Item.operands]
  case h_2 call ht =>
    obtain rfl : terminal = .rpar := ht
    rcases call with ⟨_, _, _, _ | _⟩ | ⟨_, _, _, _ | _⟩ <;>
      simp [Awaits, waiting, Before.waiting, Item.operands, Item.values, OpenCall.done,
        OpenCall.closeBare?]
  case h_3 ht =>
    obtain rfl : terminal = .lbrace := ht
    simp [Awaits, waiting, Before.waiting]
  case h_4 =>
    rename_i before _ _ hl hr hb
    have hbefore : terminal ∉ before.waiting.map Item.terminal := by
      unfold Before.waiting
      split
      case h_1 call =>
        have hr : terminal ≠ .rpar := fun h => hr call h rfl
        have hl : terminal ≠ .lpar := hl
        split <;> simp [hr, hl]
      case h_2 => simpa using fun h => hb _ _ _ _ h rfl
      case h_3 => simp
    have hl : terminal ≠ .lpar := hl
    rw [Option.isSome_map, hvalues, Awaits, waiting, List.map_append, List.mem_append,
      or_iff_right hbefore]
    simp [Item.operands, Item.values, hl]

/-- The tokens that join two operands have the symbol of an operator. -/
private theorem join_isSome {hole : Hole} {chain : Chain} {t : Token} (ht : t.Spelled)
    (h : t.terminal ∈ [.logical, .relational, .additive, .multiplicative, .slash]) :
    (join hole chain t).isSome := by
  obtain ⟨op, hop⟩ := Terminal.Spells.exists_symbol ht h
  rw [join, hop, Operator.ofSymbol?_symbol]
  rfl

private theorem operand_waiting_iff {before : Before} {o : Operand} {terminal : Terminal} :
    terminal ∈ (o.waiting before).map Item.terminal ↔
      (terminal = .lpar ∧ ∃ name, o = .value (.name name)) ∨
      (terminal = .comma ∧ ∃ v call lpar, o = .value v ∧
        before = .start (.group (.start (.argument call)) lpar)) := by
  rcases o with (_ | _ | _) | _ | _
  case group | call => simp [Operand.waiting]
  all_goals
    simp only [Operand.waiting]
    split <;> simp_all

private theorem afterOperand_awaits_iff {before : Before} {o : Operand} {t : Token}
    (ht : t.Spelled) :
    (afterOperand before o).Awaits t.terminal ↔ (finishOperand before o t).isSome := by
  obtain ⟨terminal, l⟩ := t
  have hjoin {hole : Hole} {chain : Chain} :
      terminal ∈ [.logical, .relational, .additive, .multiplicative, .slash] →
        (join hole chain ⟨terminal, l⟩).isSome :=
    join_isSome ht
  have hmem : (afterOperand before o).Awaits terminal ↔
      terminal ∈ (o.waiting before).map Item.terminal ∨
      terminal ∈ before.hole.waiting.map Item.terminal ∨
      terminal ∈ Item.operators.map Item.terminal := by
    simp [Awaits, waiting]
  rw [hmem]
  cases terminal
  case logical | relational | additive | multiplicative =>
    simp [finishOperand, Item.operators, hjoin]
  case lpar =>
    rw [operand_waiting_iff]
    rcases o with (_ | _ | _) | _ | _ <;> cases before.hole <;>
      simp [finishOperand, Hole.waiting, Item.operators]
  case comma =>
    rw [operand_waiting_iff]
    rcases before with
      (_ | _ | _ | ⟨(_ | _ | _ | _ | _) | _, _⟩ | _) |
        ⟨_ | _ | _ | ⟨(_ | _ | _ | _ | _) | _, _⟩ | _, _, _⟩ <;>
      cases o <;>
      simp [finishOperand, Before.hole, Before.chain, Hole.waiting, Item.operators]
  all_goals
    rw [operand_waiting_iff]
    cases hh : before.hole <;> simp [finishOperand, hh, Hole.waiting, Item.operators, hjoin]

theorem awaits_iff {p : Partial} {t : Token} (ht : t.Spelled) :
    p.Awaits t.terminal ↔ (p.advance t).isSome := by
  cases p with
  | operandDue before => exact operandDue_awaits_iff
  | afterOperand before o => exact afterOperand_awaits_iff ht
  | valueDue call lpar init comma => simp [advance, ← Value.ofToken?_isSome_iff, Awaits, waiting]
  | statementDue body =>
    obtain ⟨terminal, l⟩ := t
    rcases body with ⟨_, _, _, _ | _⟩ <;> cases terminal <;>
      simp [advance, Awaits, waiting, OpenBody.close?]
  | _ =>
    obtain ⟨terminal, l⟩ := t
    cases terminal <;> simp [advance, Awaits, waiting]

/-- Something is always waited for. -/
theorem exists_awaits (p : Partial) : ∃ terminal, p.Awaits terminal := by
  cases p with
  | probeDue => exact ⟨.probeSpec, by simp [Awaits, waiting]⟩
  | afterSpec => exact ⟨.slash, by simp [Awaits, waiting]⟩
  | statementDue | operandDue | valueDue =>
    exact ⟨.name, by simp [Awaits, waiting, Item.operands, Item.values]⟩
  | afterStatementName => exact ⟨.equal, by simp [Awaits, waiting]⟩
  | afterStatementCall => exact ⟨.semicolon, by simp [Awaits, waiting]⟩
  | afterOperand => exact ⟨.additive, by simp [Awaits, waiting, Item.operators]⟩
  | afterValue | afterTuple => exact ⟨.comma, by simp [Awaits, waiting]⟩

theorem exists_advance {p : Partial} {t : Token} (ht : t.Spelled) (h : p.Awaits t.terminal) :
    ∃ q, p.advance t = some q :=
  Option.isSome_iff_exists.1 ((awaits_iff ht).1 h)

theorem awaits_of_advance {p q : Partial} {t : Token} (ht : t.Spelled)
    (h : p.advance t = some q) : p.Awaits t.terminal :=
  (awaits_iff ht).2 (by rw [h]; rfl)

/-! Two terminals that are waited for and can take words at one place are the same, or both are
numerals, or they are the two readings of a slash. -/

/-- Terminals that may be waited for, by the kind of place. -/
def alternatives : Partial → List Terminal
  | probeDue _ => [.probeSpec]
  | afterSpec _ => [.slash, .lbrace]
  | statementDue _ => [.name, .rbrace]
  | afterStatementName .. => [.equal, .lpar]
  | afterStatementCall .. => [.semicolon]
  | operandDue _ => [.lpar, .rpar, .lbrace, .name, .string, .binary, .octal, .decimal, .hexadecimal]
  | afterOperand .. => [.lpar, .comma, .slash, .semicolon, .rpar, .logical, .relational, .additive,
      .multiplicative]
  | valueDue .. => [.name, .string, .binary, .octal, .decimal, .hexadecimal]
  | afterValue .. | afterTuple .. => [.comma, .rpar]

theorem Awaits.mem_alternatives {p : Partial} {terminal : Terminal} (h : p.Awaits terminal) :
    terminal ∈ p.alternatives := by
  revert h
  cases p with
  | operandDue before =>
    rw [Awaits, waiting]
    unfold Before.waiting
    split
    case h_1 => split <;> cases terminal <;> simp [alternatives, Item.operands, Item.values]
    all_goals cases terminal <;> simp [alternatives, Item.operands, Item.values]
  | afterOperand before o =>
    rw [Awaits, waiting, List.map_append, List.map_append, List.mem_append, List.mem_append,
      operand_waiting_iff]
    cases before.hole <;> cases terminal <;> simp [alternatives, Hole.waiting, Item.operators]
  | statementDue body =>
    rw [Awaits, waiting]
    split <;> cases terminal <;> simp [alternatives]
  | _ => cases terminal <;> simp [Awaits, waiting, alternatives, Item.values]

theorem Awaits.eq_or {p : Partial} {a b : Terminal} (ha : p.Awaits a) (hb : p.Awaits b)
    (h : a.family = b.family) : a = b ∨ a.family = .decimal ∨ a.family = .multiplicative := by
  have hall : ∀ a ∈ p.alternatives, ∀ b ∈ p.alternatives, a.family = b.family →
      a = b ∨ a.family = .decimal ∨ a.family = .multiplicative := by
    cases p <;> simp only [alternatives] <;> decide
  exact hall a ha.mem_alternatives b hb.mem_alternatives h

/-- A slash is waited for after an operand only where it may end a predicate. -/
theorem Awaits.exists_guard {before : Before} {o : Operand}
    (h : (afterOperand before o).Awaits .slash) :
    ∃ probe opening, before.hole = .guard probe opening := by
  rw [Awaits, waiting, List.map_append, List.map_append, List.mem_append, List.mem_append,
    operand_waiting_iff] at h
  revert h
  cases before.hole <;> simp [Hole.waiting, Item.operators]

/-- A slash that may end a predicate is read like one that divides. -/
theorem advance_slash {p : Partial} {l : Lexeme} (hs : p.Awaits .slash)
    (hm : p.Awaits .multiplicative) : p.advance ⟨.slash, l⟩ = p.advance ⟨.multiplicative, l⟩ := by
  cases p with
  | afterOperand before o =>
    obtain ⟨probe, opening, hg⟩ := hs.exists_guard
    simp only [advance, finishOperand, hg]
    rfl
  | _ =>
    have := hm.mem_alternatives
    simp [alternatives] at this

private theorem advance_numeral {p q : Partial} {r : Radix} {l : Lexeme}
    (h : p.advance ⟨.ofRadix r, l⟩ = some q) :
    (∃ before o, q = afterOperand before o) ∨
      ∃ call lpar init comma last, q = afterValue call lpar init comma last := by
  have hv := Value.ofToken?_token (.integer r l)
  rw [Value.token] at hv
  cases p with
  | operandDue before =>
    left
    have he : startOperand before ⟨.ofRadix r, l⟩ =
        some (afterOperand before (.value (.integer r l))) := by
      cases r <;> simp [startOperand, Terminal.ofRadix, Value.ofToken?]
    exact ⟨before, _, Option.some.inj (h.symm.trans he)⟩
  | valueDue call lpar init comma =>
    right
    rw [advance, hv] at h
    exact ⟨call, lpar, init, comma, _, (Option.some.inj h).symm⟩
  | afterOperand before o =>
    have he : finishOperand before o ⟨.ofRadix r, l⟩ = none := by
      cases r <;> cases hh : before.hole <;> simp [finishOperand, Terminal.ofRadix, hh]
    exact absurd (h.symm.trans he) (by simp)
  | _ => cases r <;> simp [advance, Terminal.ofRadix] at h

/-- After a numeral nothing is waited for that begins with a letter or a digit. -/
theorem not_isAlphanum_after_numeral {p q : Partial} {r : Radix} {l : Lexeme}
    (hp : p.advance ⟨.ofRadix r, l⟩ = some q) {terminal : Terminal} {c : Char} {t : Text}
    (hq : q.Awaits terminal) (h : terminal.Spells (c :: t)) : c.isAlphanum = false := by
  have hall : ∀ a ∈ q.alternatives, a ≠ .probeSpec ∧ a.family ≠ .name ∧ a.family ≠ .decimal := by
    obtain ⟨before, o, rfl⟩ | ⟨_, _, _, _, _, rfl⟩ := advance_numeral hp <;>
      simp only [alternatives] <;> decide
  obtain ⟨hspec, hname, hdecimal⟩ := hall terminal hq.mem_alternatives
  by_contra hc
  have hf := h.familyAt hspec
  rcases Terminal.familyAt_of_isAlphanum (by simpa using hc) with he | he
  · exact hname (hf.symm.trans he)
  · exact hdecimal (hf.symm.trans he)

end Partial
end ProbeScript.Phrase
