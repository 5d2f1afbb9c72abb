import ProbeScript.Proofs.Stop
import ProbeScript.Proofs.Tokens
import ProbeScript.Proofs.Tree.Guarded

/-! How reading may fail. A text that is not accepted is at fault somewhere between its start and
its end, and the message says where; nothing that is checked when a tree is built fails. There is
one exception: a decimal literal too long to be read as a number is reported without a place. This
is said of texts without surrogates, as every `Text` is; others have no encoding in which to count
the bytes before a fault. -/
namespace ProbeScript

/-- Why reading fails when everything is checked that can be. -/
inductive Failure
  | read (e : ReadError)
  | shape (e : ShapeError)
  | miscounted

def Failure.ofBuild (source : Text) : BuildError → Failure
  | .fault f => read (.ofTreeFault source f)
  | .shape e => shape e
  | .miscounted => miscounted

namespace Segment
variable {i : Nat} {c : Char} {t rest : Text} {fault : Fault}

/-- The index of the fault, if it has one, comes before the given index. -/
def Fault.Before (j : Nat) : Fault → Prop
  | invalidCharacter index _ | openComment index => index < j
  | openString => True

private theorem first_fault_before (h : first i c rest = .error fault) :
    fault.Before (i + (c :: rest).length) := by
  revert h
  fun_cases first i c rest with
  | case1 =>
    rintro ⟨⟩
    trivial
  | case4 | case7 =>
    rintro ⟨⟩
    exact Nat.lt_add_of_pos_right (List.length_pos_of_ne_nil (List.cons_ne_nil _ _))
  | _ => intro h; cases h

private theorem split_fault_before (h : split i t = .error fault) :
    fault.Before (i + t.length) := by
  fun_induction split i t with
  | case1 | case4 => cases h
  | case2 i c rest fault' hfirst =>
    obtain rfl := Except.error.inj h
    exact first_fault_before hfirst
  | case3 i c rest s after hfirst fault' hafter ih =>
    obtain rfl := Except.error.inj h
    have hbefore := ih hafter
    rwa [Nat.add_assoc, ← List.length_append, ← first_append hfirst] at hbefore

end Segment

/-- The position is that of an index of the text, or of its end. -/
def Position.Within (source : Text) (p : Position) : Prop :=
  ∃ i, i ≤ source.length ∧ p = .at source i

private theorem Diagnostic.within_ofFault {source : Text} {fault : Segment.Fault}
    (h : Text.blanked source = .error fault) : (ofFault source fault).position.Within source := by
  have hsplit : Segment.split 0 (Segment.unmarked source) = .error fault := by
    rw [Text.blanked, Segment.ofText] at h
    cases hsplit : Segment.split 0 (Segment.unmarked source) with
    | ok ss =>
      rw [hsplit] at h
      cases h
    | error fault' =>
      rw [hsplit] at h
      rw [Except.error.inj h]
  have hbefore := Segment.split_fault_before hsplit
  rw [Nat.zero_add, Text.unmarked_length] at hbefore
  cases fault with
  | invalidCharacter index c => exact ⟨index, Nat.le_of_lt hbefore, rfl⟩
  | openString | openComment => exact ⟨source.length, le_refl _, rfl⟩

namespace Goal
open Phrase

variable {g : Goal} {source text : Text} {d : g.Phrase}

/-- The tree of a phrase, built with every check. -/
def build (source : Text) : (g : Goal) → g.Phrase → Building Node
  | script, s => Script.build source s
  | expression, c => Chain.buildTree source c

/-- Reading with every check. -/
def readGuarded (g : Goal) (source : Text) : Except Failure Node := do
  let d ← (readPhrase g.initial g.finish source).mapError .read
  (g.build source d).mapError (.ofBuild source)

private theorem readGuarded_eq (g : Goal) (source : Text) :
    g.readGuarded source = (g.read source).mapError .read := by
  have hbuild (d : g.Phrase) : g.build source d = (g.tree source d).mapError .fault := by
    cases g with
    | script => exact (Script.build_agrees d).eq_mapError
    | expression => exact (Chain.buildTree_agrees d).eq_mapError
  rw [read_eq, readGuarded]
  cases readPhrase g.initial g.finish source with
  | error e => rfl
  | ok d =>
    show (g.build source d).mapError (Failure.ofBuild source) =
      ((g.tree source d).mapError (ReadError.ofTreeFault source)).mapError Failure.read
    rw [hbuild]
    cases g.tree source d with
    | ok n => rfl
    | error f => rfl

/-- A decimal literal among the tokens of the text is too long, and that is the error. -/
def TooLong (g : Goal) (source : Text) (e : ReadError) : Prop :=
  ∃ ts t, g.HasTokens source ts ∧ t ∈ ts ∧ t.terminal = .decimal ∧
    4300 < t.lexeme.text.length ∧ e = .digits t.lexeme.text.length

private theorem within_or_tooLong_of_fault {fault : TreeFault} (hb : Text.blanked source = .ok text)
    (hd : Covers text (g.tokens d)) (hf : (g.checks d).findSome? Token.fault? = some fault) :
    (∃ m, (ReadError.ofTreeFault source fault).diagnostic? = some m ∧ m.position.Within source) ∨
      g.TooLong source (.ofTreeFault source fault) := by
  obtain ⟨t, ht, hfault⟩ := List.exists_of_findSome?_eq_some hf
  have hmem : t ∈ g.tokens d := (mem_checks (by simp [hfault])).1 ht
  have hstop := (hd.start_bounds t hmem).2
  obtain ⟨terminal, l⟩ := t
  cases terminal
  case decimal =>
    rw [Token.fault?, Option.ite_none_right_eq_some] at hfault
    obtain ⟨hlong, hfault⟩ := hfault
    obtain rfl := Option.some.inj hfault
    exact .inr ⟨_, _, ⟨text, d, hb, hd, rfl⟩, hmem, rfl, hlong, rfl⟩
  case probeSpec =>
    rw [Token.fault?, Option.ite_none_right_eq_some] at hfault
    obtain rfl := Option.some.inj hfault.2
    refine .inl ⟨_, rfl, l.start, ?_, rfl⟩
    rw [← Text.blanked_length hb]
    exact (Nat.le_add_right _ _).trans hstop
  all_goals cases hfault

private theorem read_long_numeral {k : Nat} (h : 4300 < k) :
    expression.read (List.replicate k '1') = .error (.digits k) := by
  have hone : ∀ c ∈ List.replicate k '1', c = '1' := fun c hc => List.eq_of_mem_replicate hc
  have hkept : Segment.Kept (List.replicate k '1') := by
    refine .word fun c hc => ?_
    rw [hone c hc]
    decide
  have hspells : Terminal.decimal.Spells (List.replicate k '1') := by
    refine .numeral .decimal (by simp; omega) (fun c hc => by rw [hone c hc]; rfl) fun _ hzero => ?_
    cases hone '0' (List.mem_of_mem_head? hzero)
  let d : expression.Phrase := .one (.value (.integer .decimal ⟨0, List.replicate k '1'⟩))
  have hcovers : Covers (List.replicate k '1') (expression.tokens d) := hspells.covers
  have hfault : (expression.checks d).findSome? Token.fault? = some (.digits k) := by
    have htoken : Token.fault? ⟨.decimal, 0, List.replicate k '1'⟩ = some (.digits k) := by
      simp [Token.fault?, Radix.digitLimit, h]
    exact (List.findSome?_singleton ..).trans htoken
  exact read_of_fault_token (Text.blanked_of_kept hkept) hcovers hfault

/-- An error says where in the text it is, or that a literal is too long. -/
theorem within_or_tooLong_of_read {e : ReadError} (he : g.read source = .error e) :
    (∃ d, e.diagnostic? = some d ∧ d.position.Within source) ∨ g.TooLong source e := by
  cases he ▸ read_ends g source with
  | fault hb => exact .inl ⟨_, rfl, Diagnostic.within_ofFault hb⟩
  | @stop text i p hb hstop =>
    refine .inl ⟨_, rfl, i, ?_, rfl⟩
    rw [← Text.blanked_length hb]
    exact hstop.le
  | limit hb hd hf => exact within_or_tooLong_of_fault hb hd hf

/-- Reading with every check fails where reading fails. The error says where in the text it is, but
for a decimal literal that is too long, which in a text without surrogates is the one exception. -/
theorem read_failure (g : Goal) (source : Text) :
    g.readGuarded source = (g.read source).mapError .read ∧
    (∀ e, g.read source = .error e →
      (∃ d, e.diagnostic? = some d ∧ d.position.Within source) ∨ g.TooLong source e) ∧
    ∀ k, 4300 < k → expression.read (List.replicate k '1') = .error (.digits k) :=
  ⟨readGuarded_eq g source, fun _ => within_or_tooLong_of_read, fun _ => read_long_numeral⟩

end Goal
end ProbeScript
