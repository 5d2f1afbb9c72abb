import Mathlib.Algebra.Group.Nat.Even
import Mathlib.Data.List.Basic
import ProbeScript.Proofs.Phrase.Scan

/-! Quotation marks come in pairs, so the number of those before a character tells whether it stands
in a string literal, in whatever way the text falls into tokens. Outside of string literals every
brace is a token. A script has such a brace and an expression has none, so no text is both. -/
namespace ProbeScript.Phrase

namespace Terminal.Spells
variable {terminal : Terminal} {w s v : Text}

/-- A string literal has two quotation marks, and any other word has none. -/
private theorem even_count (h : terminal.Spells w) : Even (w.count '"') := by
  by_cases hs : terminal = .string
  · subst hs
    obtain ⟨inner, hinner, rfl⟩ := spells_string h
    have hcount : inner.count '"' = 0 := List.count_eq_zero.2 hinner
    rw [List.count_append, List.count_cons_self, hcount]
    decide
  · have hcount : w.count '"' = 0 := by
      refine List.count_eq_zero.2 fun hmem => ?_
      cases h.solid hs '"' hmem
    rw [hcount]
    exact Even.zero

private theorem brace_not_mem (h : terminal.Spells w) (hs : terminal ≠ .string)
    (hb : terminal ≠ .lbrace) : '\x7b' ∉ w := by
  by_cases hp : terminal = .probeSpec
  · subst hp
    intro hc
    cases (spells_probeSpec h).2 '\x7b' hc
  · rcases h.shape hs hp with hall | ⟨op, rfl⟩ | ⟨m, hm, rfl⟩
    · intro hc
      cases hall '\x7b' hc
    · cases op <;> decide
    · cases terminal <;> cases hm <;> first | exact absurd rfl hb | decide

/-- In a word that is not a brace, a brace comes after one quotation mark. -/
private theorem not_even_count (h : terminal.Spells (s ++ '\x7b' :: v)) (hb : terminal ≠ .lbrace) :
    ¬ Even (s.count '"') := by
  have hs : terminal = .string := by
    by_contra hs
    exact h.brace_not_mem hs hb (List.mem_append_right s List.mem_cons_self)
  subst hs
  obtain ⟨inner, hinner, hw⟩ := spells_string h
  cases s with
  | nil => cases (List.cons.inj hw).1
  | cons c s =>
    obtain ⟨rfl, hw⟩ := List.cons.inj hw
    have hinit : '"' ∉ s := by
      intro hc
      rcases List.eq_nil_or_concat' v with rfl | ⟨v, d, rfl⟩
      · cases (List.append_inj' hw rfl).2
      · have hinit : s ++ '\x7b' :: v ++ [d] = inner ++ ['"'] := by simpa using hw
        obtain ⟨rfl, -⟩ := List.append_inj' hinit rfl
        exact hinner (List.mem_append_left _ hc)
    rw [List.count_cons_self, List.count_eq_zero.2 hinit]
    decide

end Terminal.Spells

namespace Scans
variable {i j : Nat} {t u s v : Text} {ts : List Token}

private theorem even_count (h : Scans i t ts j u) : ∃ s, t = s ++ u ∧ Even (s.count '"') := by
  induction h with
  | done => exact ⟨[], rfl, Even.zero⟩
  | @layout _ _ c _ _ _ hc _ ih =>
    obtain ⟨s, rfl, heven⟩ := ih
    refine ⟨c :: s, rfl, ?_⟩
    rwa [List.count_cons_of_ne (by rintro rfl; cases hc)]
  | @token _ _ _ t w u _ hw _ ih =>
    obtain ⟨r, rfl⟩ := hw.isPrefix
    obtain ⟨s, hs, heven⟩ := ih
    rw [List.drop_left] at hs
    refine ⟨w ++ s, by rw [hs, List.append_assoc], ?_⟩
    rw [List.count_append]
    exact hw.spells.even_count.add heven

/-- Without a token for it, a brace stands in a string literal. -/
private theorem not_even_count (h : Scans i (s ++ '\x7b' :: v) ts j [])
    (hts : ∀ x ∈ ts, x.terminal ≠ .lbrace) : ¬ Even (s.count '"') := by
  generalize ht : s ++ '\x7b' :: v = t at h
  generalize hu : ([] : Text) = u at h
  induction h generalizing s with
  | done =>
    subst hu
    exact absurd ht (List.append_ne_nil_of_right_ne_nil s (List.cons_ne_nil _ _))
  | @layout _ _ c _ _ _ hc _ ih =>
    cases s with
    | nil =>
      obtain ⟨rfl, -⟩ := List.cons.inj ht
      cases hc
    | cons d s =>
      obtain ⟨rfl, htail⟩ := List.cons.inj ht
      rw [List.count_cons_of_ne (by rintro rfl; cases hc)]
      exact ih hts htail hu
  | @token _ _ terminal _ w _ _ hw _ ih =>
    obtain ⟨hterminal, hrest⟩ := List.forall_mem_cons.1 hts
    obtain ⟨r, rfl⟩ := hw.isPrefix
    rw [List.drop_left] at ih
    -- the brace is a character of the word, or it comes after it
    rcases List.append_eq_append_iff.1 ht with ⟨a, rfl, ha⟩ | ⟨a, rfl, ha⟩
    · cases a with
      | nil => exact absurd Even.zero (ih (s := []) hrest ha hu)
      | cons b a =>
        obtain ⟨rfl, -⟩ := List.cons.inj ha
        exact hw.spells.not_even_count hterminal
    · rw [List.count_append, Nat.even_add, iff_true_left hw.spells.even_count]
      exact ih hrest ha.symm hu

end Scans

/-! The tokens of an expression. -/

private theorem Value.ne_lbrace (v : Value) : v.token.terminal ≠ .lbrace := by
  rcases v with word | word | ⟨r, word⟩
  case integer => cases r <;> exact Terminal.noConfusion
  all_goals exact Terminal.noConfusion

private theorem Values.ne_lbrace (vs : Values) : ∀ x ∈ vs.tokens, x.terminal ≠ .lbrace := by
  induction vs with
  | one v => exact List.forall_mem_singleton.2 v.ne_lbrace
  | more init comma last ih =>
    refine List.forall_mem_append.2 ⟨ih, List.forall_mem_cons.2 ⟨Terminal.noConfusion, ?_⟩⟩
    exact List.forall_mem_singleton.2 last.ne_lbrace

mutual

private theorem Operand.ne_lbrace : (o : Operand) → ∀ x ∈ o.tokens, x.terminal ≠ .lbrace
  | .value v => List.forall_mem_singleton.2 v.ne_lbrace
  | .group lpar inner rpar => by simpa [Operand.tokens, or_imp, forall_and] using inner.ne_lbrace
  | .call c => c.ne_lbrace

/-- No brace is a token of an expression. -/
private theorem Chain.ne_lbrace : (c : Chain) → ∀ x ∈ c.tokens, x.terminal ≠ .lbrace
  | .one o => o.ne_lbrace
  | .more init joint last => by
    have hjoint : joint.token.terminal ≠ .lbrace := by
      rcases joint with ⟨op, start⟩
      cases op <;> exact Terminal.noConfusion
    exact List.forall_mem_append.2
      ⟨init.ne_lbrace, List.forall_mem_cons.2 ⟨hjoint, last.ne_lbrace⟩⟩

private theorem Call.ne_lbrace : (c : Call) → ∀ x ∈ c.tokens, x.terminal ≠ .lbrace
  | .bare name lpar rpar => by simp [Call.tokens]
  | .applied name lpar args rpar => by
    simpa [Call.tokens, or_imp, forall_and] using args.ne_lbrace

private theorem Args.ne_lbrace : (as : Args) → ∀ x ∈ as.tokens, x.terminal ≠ .lbrace
  | .one a => a.ne_lbrace
  | .more init _ last => List.forall_mem_append.2
      ⟨init.ne_lbrace, List.forall_mem_cons.2 ⟨Terminal.noConfusion, last.ne_lbrace⟩⟩

private theorem Arg.ne_lbrace : (a : Arg) → ∀ x ∈ a.tokens, x.terminal ≠ .lbrace
  | .chain c => c.ne_lbrace
  | .tuple lpar init comma last rpar => by
    have hvalues := init.ne_lbrace
    have hlast := last.ne_lbrace
    simpa [Arg.tokens, or_imp, forall_and] using ⟨hvalues, hlast⟩

end

/-- No text falls into the tokens of an expression and into those of a script as well. -/
theorem Covers.not_script {t : Text} {c : Chain} (h : Covers t c.tokens) (s : Script) :
    ¬ Covers t s.tokens := by
  intro hs
  let p := s.first
  obtain ⟨post, hpost⟩ : ∃ post, s.tokens =
      (⟨.probeSpec, p.spec⟩ :: p.guard.elim [] Guard.tokens) ++ ⟨.lbrace, p.lbrace⟩ :: post :=
    ⟨p.statements.flatMap Statement.tokens ++ ⟨.rbrace, p.rbrace⟩ :: s.others.flatMap Probe.tokens,
      by simp [Script.tokens, Script.probes, Probe.tokens, p]⟩
  rw [Covers, hpost] at hs
  obtain ⟨u, hpre, hbrace, -⟩ := hs.split_at
  have htext : p.lbrace.text = ['\x7b'] := Terminal.spells_punctuation rfl hbrace.spells
  obtain ⟨r, rfl, heven⟩ := hpre.even_count
  obtain ⟨v, rfl⟩ : p.lbrace.text <+: u := hbrace.isPrefix
  rw [Covers, htext] at h
  exact h.not_even_count c.ne_lbrace heven

end ProbeScript.Phrase
