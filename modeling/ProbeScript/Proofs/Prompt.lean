import ProbeScript.Proofs.Failure
import ProbeScript.Proofs.FixedPoint
import ProbeScript.Proofs.Outline

/-! What the prompt makes of a line. No line is both a script and an expression, so the prompt shows
the one tree that there is; and of two errors it reports that of the script. -/
namespace ProbeScript

namespace Goal

variable {g : Goal} {source : Text} {n : Node} {d : Diagnostic} {k : Nat}

/-- Whether a text falls into strings, comments and characters of the language does not depend on
what it is read as. -/
private theorem read_of_lexical (h : g.read source = .error (.lexical d)) (g' : Goal) :
    g'.read source = .error (.lexical d) := by
  generalize he : Except.error (ReadError.lexical d) = r at h
  cases h ▸ read_ends g source with
  | fault hb => exact read_of_fault hb
  | @limit _ _ f => cases f <;> cases he
  | _ => cases he

private theorem script_read_of_digits (h : expression.read source = .error (.digits k)) :
    ∃ d, script.read source = .error (.grammatical d) := by
  rcases within_or_tooLong_of_read h with ⟨d, hd, -⟩ | ⟨ts, t, ⟨text, c, hblanked, hcovers, -⟩, -⟩
  · cases hd
  · exact script_read_of_covers hblanked hcovers

/-- A tree that was read fails to be shown only as an outline, and only for an integer of more
digits than may be written. -/
theorem text_eq_error_iff {format : Format} {e : PrintError} (h : g.read source = .ok n) :
    format.text n = .error e ↔ format = .tree ∧ e = .tooLarge ∧
      ∃ value base span, .integer value base span ∈ n.nodes ∧ 10 ^ Radix.digitLimit ≤ value := by
  cases format with
  | tree => exact (outline_eq_error_iff_of_read h).trans (and_iff_right rfl).symm
  | source =>
    obtain ⟨t, -, ht, -⟩ := exists_shown h
    have hsource : Format.source.text n = .ok t := ht
    rw [hsource]
    exact ⟨nofun, nofun⟩

end Goal

section
variable {format : Format} {r : Except ReadError Node} {o : Text} {e : ShowError}

theorem shown_eq_ok_iff : shown format r = .ok o ↔
    ∃ n t, r = .ok n ∧ format.text n = .ok t ∧ o = Text.stripEnd t ++ ['\n'] := by
  fun_cases shown format r with
  | case1 e' => exact ⟨nofun, nofun⟩
  | case2 n e' ht =>
    constructor
    · nofun
    · rintro ⟨_, t, ⟨⟩, ht', -⟩
      cases ht.symm.trans ht'
  | case3 n t ht =>
    constructor
    · rintro ⟨⟩
      exact ⟨n, t, rfl, ht, rfl⟩
    · rintro ⟨_, t', ⟨⟩, ht', rfl⟩
      rw [Except.ok.inj (ht.symm.trans ht')]

theorem shown_eq_error_iff : shown format r = .error e ↔ (∃ e', r = .error e' ∧ e = .read e') ∨
    ∃ n e', r = .ok n ∧ format.text n = .error e' ∧ e = .print e' := by
  fun_cases shown format r with
  | case1 e' => simp [eq_comm]
  | case2 n e' ht => simp [ht, eq_comm]
  | case3 n t ht => simp [ht]

end

namespace Prompt
open Goal

variable {format : Format} {line o : Text} {e : ShowError}

/-- Why nothing is shown for a line that is not blank. -/
inductive Refuses (format : Format) (line : Text) : ShowError → Prop
  /-- It is neither a script nor an expression, and the error is that of the script. -/
  | neither {e e' : ReadError} {d d' : Diagnostic} : script.read line = .error e →
      expression.read line = .error e' → e.diagnostic? = some d → e'.diagnostic? = some d' →
      Refuses format line (.read e)
  /-- A decimal literal in it is too long. -/
  | numeral {g : Goal} {k : Nat} : g.read line = .error (.digits k) → g.TooLong line (.digits k) →
      Refuses format line (.read (.digits k))
  /-- The outline of its tree would hold an integer that is too large. -/
  | integer {g : Goal} {n : Node} {value base : Int} {span : Option Span} : format = .tree →
      g.read line = .ok n → .integer value base span ∈ n.nodes → 10 ^ 4300 ≤ value →
      Refuses format line (.print .tooLarge)

private theorem diagnosed_of_ne {e : ReadError} (h : ∀ k, e ≠ .digits k) :
    ∃ d, e.diagnostic? = some d := by
  cases e with
  | lexical d | grammatical d => exact ⟨d, rfl⟩
  | digits k => exact absurd rfl (h k)

/-- Of a line that is neither, the error of the script is reported, unless some literal is too
long. -/
theorem read_eq_error_iff {e : ReadError} : read line = .error e ↔
    (script.read line = .error e ∧ (∃ d, e.diagnostic? = some d) ∧
      ∃ e' d', expression.read line = .error e' ∧ e'.diagnostic? = some d') ∨
    ∃ (g : Goal) (k : Nat), g.read line = .error (.digits k) ∧ e = .digits k := by
  constructor
  · intro h
    rw [read] at h
    split at h
    case h_1 d hs =>
      split at h
      case h_1 => cases h
      case h_2 k he =>
        exact .inr ⟨.expression, k, he, (Except.error.inj h).symm⟩
      case h_3 e' hne he =>
        obtain rfl := Except.error.inj h
        obtain ⟨d', hd'⟩ := diagnosed_of_ne fun k hk => hne k (hk ▸ rfl)
        exact .inl ⟨hs, ⟨d, rfl⟩, e', d', he, hd'⟩
    case h_2 hne =>
      cases e with
      | lexical d =>
        -- the line is not read as an expression, but this would give the same error
        have hscript : script.read line = .error (.lexical d) := h
        exact .inl ⟨hscript, ⟨d, rfl⟩, _, d, read_of_lexical hscript .expression, rfl⟩
      | grammatical d => exact absurd h (hne d)
      | digits k => exact .inr ⟨.script, k, h, rfl⟩
  · rintro (⟨hs, ⟨d, hd⟩, e', d', he, hd'⟩ | ⟨g, k, hg, rfl⟩)
    · have hscript : readScript line = .error e := hs
      have hexpression : readExpression line = .error e' := he
      rw [read, hscript]
      cases e with
      | lexical d => rfl
      | digits k => cases hd
      | grammatical d =>
        cases e' with
        | digits k => cases hd'
        | _ => simp only [hexpression]
    · cases g with
      | script =>
        have hscript : readScript line = .error (.digits k) := hg
        rw [read, hscript]
      | expression =>
        obtain ⟨d, hd⟩ := script_read_of_digits hg
        have hscript : readScript line = .error (.grammatical d) := hd
        have hexpression : readExpression line = .error (.digits k) := hg
        rw [read, hscript]
        simp only [hexpression]

theorem answer_of_not_blank (h : Text.isBlank line = false) :
    answer format line = shown format (read line) := by
  rw [answer, if_neg (by simp [h])]

/-- What is shown of a line that is not blank is the tree that was read, as a script or as an
expression. -/
theorem answer_eq_ok_iff (h : Text.isBlank line = false) : answer format line = .ok o ↔
    ∃ (g : Goal) (n : Node) (t : Text), g.read line = .ok n ∧ format.text n = .ok t ∧
      o = Text.stripEnd t ++ ['\n'] := by
  rw [answer_of_not_blank h, shown_eq_ok_iff]
  constructor
  · rintro ⟨n, t, hn, ht⟩
    obtain ⟨g, hg⟩ := read_eq_ok_iff.1 hn
    exact ⟨g, n, t, hg, ht⟩
  · rintro ⟨g, n, t, hg, ht⟩
    exact ⟨n, t, read_eq_ok_iff.2 ⟨g, hg⟩, ht⟩

theorem answer_eq_error_iff (h : Text.isBlank line = false) :
    answer format line = .error e ↔ Refuses format line e := by
  rw [answer_of_not_blank h, shown_eq_error_iff]
  constructor
  · rintro (⟨e, he, rfl⟩ | ⟨n, e, hn, he, rfl⟩)
    · rcases read_eq_error_iff.1 he with ⟨hs, ⟨d, hd⟩, e', d', hx, hd'⟩ | ⟨g, k, hg, rfl⟩
      · exact .neither hs hx hd hd'
      · rcases within_or_tooLong_of_read hg with ⟨d, hd, -⟩ | hlong
        · cases hd
        · exact .numeral hg hlong
    · obtain ⟨g, hg⟩ := read_eq_ok_iff.1 hn
      obtain ⟨hformat, rfl, value, base, span, hmem, hle⟩ := (text_eq_error_iff hg).1 he
      exact .integer hformat hg hmem hle
  · intro hrefuses
    cases hrefuses with
    | neither hs hx hd hd' =>
      exact .inl ⟨_, read_eq_error_iff.2 (.inl ⟨hs, ⟨_, hd⟩, _, _, hx, hd'⟩), rfl⟩
    | numeral hg _ => exact .inl ⟨_, read_eq_error_iff.2 (.inr ⟨_, _, hg, rfl⟩), rfl⟩
    | integer hformat hg hmem hle =>
      have htext := (text_eq_error_iff hg).2 ⟨hformat, rfl, _, _, _, hmem, hle⟩
      exact .inr ⟨_, _, read_eq_ok_iff.2 ⟨_, hg⟩, htext, rfl⟩

end Prompt
end ProbeScript
