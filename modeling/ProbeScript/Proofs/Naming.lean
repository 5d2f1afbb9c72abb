import ProbeScript.Proofs.Stop
import ProbeScript.Proofs.Text.Order
import ProbeScript.Proofs.Tokens
import ProbeScript.Proofs.Tree.Placed

/-! Which rules a message names. Wherever a script stops, some rule asks for what could come next.
An expression can stop where none does: behind a whole expression only an operator can come, and
operators belong to no rule, but a name might still be called. -/
namespace ProbeScript

namespace Phrase

private theorem Item.rules_eq_nil_iff {items : List Item} :
    rules items = [] ↔ ∀ item ∈ items, item.rule = none := by
  have hall (r : Rule) : r ∈ Rule.all := by cases r <;> decide
  simp only [rules, List.filter_eq_nil_iff, List.any_eq_true, not_exists, not_and, beq_iff_eq]
  constructor
  · intro h item hitem
    cases hrule : item.rule with
    | none => rfl
    | some r => exact absurd hrule (h r (hall r) item hitem)
  · intro h r _ item hitem hrule
    rw [h item hitem] at hrule
    cases hrule

/-- Some rule asks for the end of a chain, unless the chain is all there is. -/
private theorem Hole.eq_alone_of_waiting {hole : Hole}
    (h : ∀ item ∈ hole.waiting, item.rule = none) :
    hole = .alone := by
  cases hole with
  | alone => rfl
  | guard | assigned | group | argument => simp [waiting] at h

namespace Operand
variable {before : Before} {o : Operand}

/-- The rule of calls asks for a parenthesis behind a name. -/
private theorem ne_name_of_waiting (h : ∀ item ∈ o.waiting before, item.rule = none) (w : Lexeme) :
    o ≠ .value (.name w) := by
  rintro rfl
  simp [waiting] at h

private theorem waiting_eq_nil (hhole : before.hole = .alone) (hname : ∀ w, o ≠ .value (.name w)) :
    o.waiting before = [] := by
  cases o with
  | group | call => rfl
  | value v =>
    cases v with
    | name w => exact absurd rfl (hname w)
    | string | integer =>
      cases before with
      | joined => rfl
      | start hole =>
        obtain rfl : hole = .alone := hhole
        rfl

/-- The last of its tokens is a name only if the operand is one. -/
private theorem terminal_eq_name_iff {t : Token} (h : o.tokens.getLast? = some t) :
    t.terminal = .name ↔ ∃ w, o = .value (.name w) := by
  cases o with
  | value v =>
    obtain rfl := Option.some.inj h
    rcases v with w | w | ⟨r, w⟩
    · simp [Value.token]
    · simp [Value.token]
    · cases r <;> simp [Value.token, Terminal.ofRadix]
  | group lpar inner rpar =>
    obtain rfl : ⟨.rpar, rpar⟩ = t := by simpa [tokens, List.getLast?_cons] using h
    simp
  | call c =>
    have hrpar : t.terminal = .rpar := by
      cases c <;> simp [tokens, Call.tokens, List.getLast?_cons] at h <;> rw [← h]
    simp [hrpar]

end Operand

private theorem Chain.terminal_eq_name_iff {c : Chain} {t : Token}
    (h : c.tokens.getLast? = some t) :
    t.terminal = .name ↔ ∃ w, c.last = .value (.name w) := by
  refine Operand.terminal_eq_name_iff ?_
  cases c with
  | one o => exact h
  | more init joint o =>
    obtain ⟨x, hx, -⟩ := o.getLast?_tokens
    rw [Option.mem_def] at hx
    simpa [tokens, last, List.getLast?_append, List.getLast?_cons, hx] using h

/-- No rule asks for anything behind a whole expression that does not end with a name, and nowhere
else. -/
private theorem Partial.rules_waiting_eq_nil_iff {p : Partial} : Item.rules p.waiting = [] ↔
    ∃ c, p = Goal.expression.final c ∧ ∀ w, c.last ≠ .value (.name w) := by
  rw [Item.rules_eq_nil_iff]
  constructor
  · intro h
    cases p with
    | afterOperand before o =>
      simp only [waiting, List.forall_mem_append] at h
      obtain ⟨⟨hoperand, hhole⟩, -⟩ := h
      have hfinish : Goal.expression.finish (afterOperand before o) = some (before.chain o) := by
        simp only [Goal.finish, expression?, Hole.eq_alone_of_waiting hhole]
      refine ⟨before.chain o, Goal.finish_eq_some_iff.1 hfinish, ?_⟩
      rw [before.chain_last]
      exact Operand.ne_name_of_waiting hoperand
    | operandDue before =>
      have hgroup := h ⟨.lpar, some .operand⟩ (List.mem_append_right _ List.mem_cons_self)
      cases hgroup
    | _ => simp [waiting, Item.values] at h
  · rintro ⟨c, rfl, hname⟩
    have hoperand := Operand.waiting_eq_nil (c.before_hole .alone) hname
    simp [Goal.final, waiting, hoperand, Hole.waiting, Item.operators]

/-- What is waited for there is an operator. -/
private theorem Partial.expected_of_rules_eq_nil {p : Partial} (h : Item.rules p.waiting = []) :
    Item.expected p.waiting = [.logical, .multiplicative, .relational, .additive] := by
  obtain ⟨c, rfl, hname⟩ := rules_waiting_eq_nil_iff.1 h
  have hoperand := Operand.waiting_eq_nil (c.before_hole .alone) hname
  have hwaiting : (Goal.expression.final c).waiting = Item.operators := by
    simp [Goal.final, waiting, hoperand, Hole.waiting]
  rw [hwaiting]
  rfl

end Phrase

theorem Diagnostic.ruleText_eq_none_iff {rules : List Phrase.Rule} :
    ruleText rules = none ↔ rules = [] := by
  rw [ruleText]
  split <;> simp_all

namespace Goal
open Phrase

variable {g : Goal} {source text : Text} {i : Nat} {p : Partial} {e : ReadError} {d : Diagnostic}

private theorem Stops.goal_eq (h : g.Stops text i p) : p.goal = g := by
  obtain ⟨ts, hrun, hscans, -⟩ := h.exists_scans
  rw [Partial.run_goal hscans.spelled hrun, Partial.goal_initial]

/-- The text before the place is blanked as it is in the whole text. -/
private theorem Stops.blanked_take (h : g.Stops text i p) (hb : Text.blanked source = .ok text) :
    Text.blanked (source.take i) = .ok (text.take i) := by
  obtain ⟨ss, hrow, rfl⟩ := Text.blanked_eq_ok_iff.1 hb
  obtain ⟨us, vs, rfl, rfl, -⟩ := h.boundary hrow.sound
  obtain ⟨v, hv, -⟩ := hrow.split
  have hcut := hv.cut (v := []) (.inr nofun)
  have hunmarked := Text.unmarked_take_append (v := []) hv.text_eq nofun
  rw [← hunmarked, List.append_nil] at hcut
  refine Text.blanked_eq_ok_iff.2 ⟨us, hcut, ?_⟩
  rw [List.flatMap_append, ← Text.flatMap_blanked_length, List.take_left]

/-- The text before the place is read to its end. -/
private theorem Stops.read_take (h : g.Stops text i p) :
    g.initial.read 0 0 (text.take i) = .ok p := by
  obtain ⟨ts, hrun, hscans, -⟩ := h.exists_scans
  obtain ⟨s, hs, hi, hcut⟩ := hscans.exists_read
  have htake : s = text.take i := by
    have hlen : i = s.length := by omega
    rw [hs, hlen, List.take_left']
    rfl
  have hscans' := hcut [] (.inr nofun)
  rw [List.append_nil, htake] at hscans'
  rw [(Partial.reads_of_scans hscans' hrun nofun).read_eq]
  rfl

/-- What has been read is a whole phrase if the text before the place is one. -/
private theorem Stops.eq_final_iff (h : g.Stops text i p) {d : g.Phrase} :
    p = g.final d ↔ Covers (text.take i) (g.tokens d) := by
  rw [← read_eq_ok_iff, h.read_take, Except.ok.injEq]

/-- The tokens of the text before the place, if it is an expression of its own. -/
private theorem Stops.hasTokens_take_iff (h : g.Stops text i p)
    (hb : Text.blanked source = .ok text) {ts : List Token} :
    g.HasTokens (source.take i) ts ↔ ∃ d, p = g.final d ∧ g.tokens d = ts := by
  constructor
  · rintro ⟨text', d, hb', hd, htokens⟩
    obtain rfl := Except.ok.inj ((h.blanked_take hb).symm.trans hb')
    exact ⟨d, h.eq_final_iff.2 hd, htokens⟩
  · rintro ⟨d, hp, htokens⟩
    exact ⟨_, d, h.blanked_take hb, h.eq_final_iff.1 hp, htokens⟩

private theorem Stops.rules_eq_nil_iff (h : expression.Stops text i p)
    (hb : Text.blanked source = .ok text) : Item.rules p.waiting = [] ↔
      ∃ ts t, expression.HasTokens (source.take i) (ts ++ [t]) ∧ t.terminal ≠ .name := by
  rw [Partial.rules_waiting_eq_nil_iff]
  constructor
  · rintro ⟨c, hp, hname⟩
    obtain ⟨t, ht, -⟩ := c.getLast?_tokens
    have htokens : c.tokens = c.tokens.dropLast ++ [t] := (List.dropLast_append_getLast? t ht).symm
    refine ⟨c.tokens.dropLast, t, (h.hasTokens_take_iff hb).2 ⟨c, hp, htokens⟩, fun hterminal => ?_⟩
    obtain ⟨w, hw⟩ := (Chain.terminal_eq_name_iff ht).1 hterminal
    exact hname w hw
  · rintro ⟨ts, t, htokens, ht⟩
    obtain ⟨c, hp, hc⟩ := (h.hasTokens_take_iff hb).1 htokens
    have hlast : Chain.tokens c = ts ++ [t] := hc
    refine ⟨c, hp, fun w hw => ht ((Chain.terminal_eq_name_iff ?_).2 ⟨w, hw⟩)⟩
    rw [hlast, List.getLast?_concat]

/-- Of an expression that is refused, only a stop is reported as grammatical. -/
private theorem exists_stop_of_grammatical (h : expression.read source = .error (.grammatical d)) :
    ∃ text i p, Text.blanked source = .ok text ∧ expression.Stops text i p ∧
      d = .ofStop source i p.waiting := by
  generalize he : Except.error (ReadError.grammatical d) = r at h
  cases h ▸ read_ends expression source with
  | fault | tree => cases he
  | stop hb hstop => exact ⟨_, _, _, hb, hstop, ReadError.grammatical.inj (Except.error.inj he)⟩
  | @limit _ c f hb hd hf =>
    cases f with
    | digits => cases he
    | malformedSpec j spec =>
      obtain ⟨t, ht, hfault⟩ := List.exists_of_findSome?_eq_some hf
      have hspec : t.terminal = .probeSpec := by
        obtain ⟨terminal, l⟩ := t
        cases terminal <;> simp [Token.fault?] at hfault
        rfl
      cases script_of_probeSpec hd.spelled ht hspec

/-- Whatever is wrong with a script, some rule is named. -/
private theorem rule_ne_none_of_script (h : script.read source = .error e)
    (hd : e.diagnostic? = some d) :
    d.rule ≠ none := by
  cases h ▸ read_ends script source with
  | @fault f hb =>
    obtain rfl := Option.some.inj hd
    cases f <;> exact Option.some_ne_none _
  | @stop _ _ p hb hstop =>
    obtain rfl := Option.some.inj hd
    rw [Diagnostic.ofStop, Ne, Diagnostic.ruleText_eq_none_iff, Partial.rules_waiting_eq_nil_iff]
    rintro ⟨c, rfl, -⟩
    have hgoal := hstop.goal_eq
    rw [Partial.goal_final] at hgoal
    cases hgoal
  | @limit _ _ f hb hcovers hf =>
    cases f with
    | digits => cases hd
    | malformedSpec =>
      obtain rfl := Option.some.inj hd
      exact Option.some_ne_none _

/-- A message about a text that is no script always names a rule. A message about a text that does
not follow the grammar of expressions names none exactly if what stands before the place is an
expression of its own that does not end with a name; and then just the operators can go on with
it. -/
theorem rule_named :
    (∀ source e d, script.read source = .error e → e.diagnostic? = some d → d.rule ≠ none) ∧
    ∀ source d, expression.read source = .error (.grammatical d) →
      (∃ i ≤ source.length, d.position = .at source i) ∧
      (∀ i ≤ source.length, d.position = .at source i → (d.rule = none ↔ ∃ ts t,
        expression.HasTokens (source.take i) (ts ++ [t]) ∧ t.terminal ≠ .name)) ∧
      (d.rule = none → d.expected =
        [Terminal.logical, .multiplicative, .relational, .additive].map Terminal.title) := by
  refine ⟨fun source e d => rule_ne_none_of_script, fun source d h => ?_⟩
  obtain ⟨text, i, p, hb, hstop, rfl⟩ := exists_stop_of_grammatical h
  have hi : i ≤ source.length := Text.blanked_length hb ▸ hstop.le
  refine ⟨⟨i, hi, rfl⟩, fun j hj hposition => ?_, fun hrule => ?_⟩
  · obtain rfl := Position.index_unique hi hj (congrArg Position.place hposition)
    rw [Diagnostic.ofStop, Diagnostic.ruleText_eq_none_iff]
    exact hstop.rules_eq_nil_iff hb
  · have hnil := Diagnostic.ruleText_eq_none_iff.1 hrule
    rw [Diagnostic.ofStop, Partial.expected_of_rules_eq_nil hnil]

/-- A name behind a group, which is a whole expression. -/
theorem rule_named_group : ∃ d, expression.read "(a) b".toList = .error (.grammatical d) ∧
    d.position = .at "(a) b".toList 4 ∧ d.rule = none ∧ d.expected =
      [Terminal.logical, .multiplicative, .relational, .additive].map Terminal.title := by
  let name : Operand := .value (.name ⟨1, ['a']⟩)
  let c : expression.Phrase := .one (.group ⟨0, ['(']⟩ (.one name) ⟨2, [')']⟩)
  have hread : expression.initial.read 0 0 "(a) b".toList = .error (4, expression.final c) := rfl
  have hcovers : Covers "(a) ".toList (expression.tokens c) := read_eq_ok_iff.1 rfl
  have hkept {t : Text} (h : ∀ a ∈ t, Segment.inAlphabet a = true ∧ a ≠ '/') :
      Text.blanked t = .ok t := Text.blanked_of_kept (.word h)
  have herror := read_of_error (hkept (Text.forall_mem_of_all (by decide))) hread
  obtain ⟨-, hiff, hexpected⟩ := rule_named.2 _ _ herror
  have hrule := (hiff 4 (by decide) rfl).2 ⟨_, ⟨.rpar, 2, [')']⟩,
    ⟨_, c, hkept (Text.forall_mem_of_all (by decide)), hcovers, rfl⟩, by decide⟩
  exact ⟨_, herror, rfl, hrule, hexpected hrule⟩

end Goal
end ProbeScript
