import ProbeScript.Proofs.Phrase.Run
import ProbeScript.Proofs.Text.Row
import ProbeScript.Tree.FromText

/-! The two things that a text may be read as, a script or a single expression, and the phrases
that the reader makes of a text for each. -/
namespace ProbeScript

open Phrase

/-- What a text is read as. -/
inductive Goal
  | script | expression
  deriving DecidableEq, Repr

namespace Goal

/-- The phrases for the goal. A phrase whose tokens cover a text is a derivation of the text. -/
abbrev Phrase : Goal → Type
  | script => Script
  | expression => Chain

def tokens : (g : Goal) → g.Phrase → List Token
  | script, s => Script.tokens s
  | expression, c => Chain.tokens c

def tree (source : Text) : (g : Goal) → g.Phrase → Fallible Node
  | script, s => Script.tree source s
  | expression, c => Chain.tree source c

def initial : Goal → Partial
  | script => .probeDue []
  | expression => .operandDue (.start .alone)

def finish : (g : Goal) → Partial → Option g.Phrase
  | script => Partial.script?
  | expression => Partial.expression?

def read : Goal → Text → Except ReadError Node
  | script => readScript
  | expression => readExpression

/-- The phrase as the reader holds it when the text ends. -/
def final : (g : Goal) → g.Phrase → Partial
  | script, s => .probeDue (Script.probes s)
  | expression, c => .afterOperand (Chain.before .alone c) (Chain.last c)

theorem read_eq (g : Goal) (source : Text) : g.read source =
    readPhrase g.initial g.finish source >>= fun d =>
      (g.tree source d).mapError (.ofTreeFault source) := by
  cases g <;> rfl

theorem finish_eq_some_iff {g : Goal} {p : Partial} {d : g.Phrase} :
    g.finish p = some d ↔ p = g.final d := by
  constructor
  · intro h
    cases g with
    | script =>
      match p, h with
      | .probeDue (first :: others), h =>
        obtain rfl := Option.some.inj h
        rfl
    | expression =>
      match p, h with
      | .afterOperand before o, h =>
        simp only [finish, Partial.expression?] at h
        split at h
        case h_1 hhole =>
          obtain rfl := Option.some.inj h
          rw [final.eq_def, ← hhole]
          dsimp only
          rw [before.chain_before, before.chain_last]
        case h_2 => cases h
  · rintro rfl
    cases g with
    | script => rfl
    | expression =>
      have hhole := Chain.before_hole .alone d
      have hchain := Chain.before_chain .alone d
      simp only [finish, final, Partial.expression?]
      rw [hhole, hchain]

theorem tokens_final (g : Goal) (d : g.Phrase) : (g.final d).tokens = g.tokens d := by
  cases g with
  | script => rfl
  | expression =>
    have hhole := Chain.before_hole .alone d
    have hchain := Chain.before_chain .alone d
    simp only [final, Partial.tokens, Before.tokens_append]
    rw [hhole, hchain]
    rfl

theorem run_tokens {g : Goal} {d : g.Phrase} (h : ∀ x ∈ g.tokens d, x.Spelled) :
    g.initial.run (g.tokens d) = some (g.final d) := by
  cases g with
  | script => exact Script.run_tokens [] h
  | expression => exact Chain.run_tokens .alone d

theorem initial_tokens (g : Goal) : g.initial.tokens = [] := by cases g <;> rfl

/-- A text is read to the end exactly into the phrases that are derivations of it. -/
theorem read_eq_ok_iff {g : Goal} {text : Text} {d : g.Phrase} :
    g.initial.read 0 0 text = .ok (g.final d) ↔ Covers text (g.tokens d) := by
  constructor
  · intro h
    obtain ⟨ls, q, j, u, hreads, hend⟩ := Partial.exists_reads g.initial 0 text
    rw [hreads.read_eq] at h
    obtain ⟨ts, hscans, hrun, -⟩ := hreads.exists_scans
    have hq : u = [] ∧ q = g.final d := by
      rcases hend with rfl | ⟨c, v, rfl, hc, hn⟩
      · exact ⟨rfl, Except.ok.inj h⟩
      · rw [Partial.read, if_neg (by simp [hc]), hn] at h
        cases h
    obtain ⟨rfl, rfl⟩ := hq
    have hlen := hscans.length_eq
    have hcovers := Partial.run_scans (g.initial_tokens ▸ Scans.done 0 text) hscans hrun
    rw [tokens_final] at hcovers
    rwa [Covers, show text.length = j by simpa using hlen]
  · intro h
    have hrun := run_tokens h.spelled
    have hreads := Partial.reads_of_scans h hrun (fun c hc => by cases hc)
    rw [hreads.read_eq]
    rfl

theorem covers_unique {g : Goal} {text : Text} {d d' : g.Phrase}
    (h : Covers text (g.tokens d)) (h' : Covers text (g.tokens d')) : d = d' := by
  have hfinal := Except.ok.inj ((read_eq_ok_iff.2 h).symm.trans (read_eq_ok_iff.2 h'))
  have hd := finish_eq_some_iff.2 hfinal
  rw [finish_eq_some_iff.2 rfl] at hd
  exact Option.some.inj hd

/-- The reader stops in the text at the index, before its end or there, with the phrase so far. -/
structure Stops (g : Goal) (text : Text) (i : Nat) (p : Partial) : Prop where
  exists_reads : ∃ ls, Partial.Reads g.initial 0 text ls p i (text.drop i)
  ending : i = text.length ∧ g.finish p = none ∨
    ∃ c ∈ (text.drop i).head?, Text.isLayout c = false ∧ p.next? i (text.drop i) = none

theorem readPhrase_of_fault {g : Goal} {source : Text} {fault : Segment.Fault}
    (h : Text.blanked source = .error fault) :
    readPhrase g.initial g.finish source = .error (.lexical (.ofFault source fault)) := by
  rw [readPhrase, h]
  rfl

private theorem readPhrase_of_finish {g : Goal} {source text : Text} {p : Partial} {d : g.Phrase}
    (h : Text.blanked source = .ok text) (hr : g.initial.read 0 0 text = .ok p)
    (hd : g.finish p = some d) : readPhrase g.initial g.finish source = .ok d := by
  simp only [readPhrase, h, Except.mapError, bind, Except.bind, hr, hd]

theorem readPhrase_of_covers {g : Goal} {source text : Text} {d : g.Phrase}
    (h : Text.blanked source = .ok text) (hd : Covers text (g.tokens d)) :
    readPhrase g.initial g.finish source = .ok d :=
  readPhrase_of_finish h (read_eq_ok_iff.2 hd) (finish_eq_some_iff.2 rfl)

theorem readPhrase_of_error {g : Goal} {source text : Text} {i : Nat} {p : Partial}
    (h : Text.blanked source = .ok text) (hr : g.initial.read 0 0 text = .error (i, p)) :
    readPhrase g.initial g.finish source =
      .error (.grammatical (.ofStop source i p.waiting)) := by
  simp only [readPhrase, h, Except.mapError, bind, Except.bind, hr]

theorem readPhrase_of_unfinished {g : Goal} {source text : Text} {p : Partial}
    (h : Text.blanked source = .ok text) (hr : g.initial.read 0 0 text = .ok p)
    (hf : g.finish p = none) : readPhrase g.initial g.finish source =
      .error (.grammatical (.ofStop source source.length p.waiting)) := by
  simp only [readPhrase, h, Except.mapError, bind, Except.bind, hr, hf]

theorem exists_stop {g : Goal} {source text : Text} (h : Text.blanked source = .ok text)
    (hno : ∀ d, ¬ Covers text (g.tokens d)) : ∃ i p, g.Stops text i p ∧
      readPhrase g.initial g.finish source =
        .error (.grammatical (.ofStop source i p.waiting)) := by
  obtain ⟨ls, p, i, u, hreads, hend⟩ := Partial.exists_reads g.initial 0 text
  obtain ⟨ts, hscans, -⟩ := hreads.exists_scans
  have hdrop : u = text.drop i := by
    obtain ⟨s, rfl, rfl, -⟩ := hscans.exists_read
    simp
  have hlen := hreads.length_eq
  rcases hend with rfl | ⟨c, v, rfl, hc, hn⟩
  · have hi : i = source.length := by
      rw [← Text.blanked_length h]
      simpa using hlen.symm
    have hfinish : g.finish p = none := by
      cases hf : g.finish p with
      | none => rfl
      | some d =>
        obtain rfl := finish_eq_some_iff.1 hf
        exact absurd (read_eq_ok_iff.1 hreads.read_eq) (hno d)
    refine ⟨i, p, ⟨⟨ls, hdrop ▸ hreads⟩, .inl ⟨by simpa using hlen.symm, hfinish⟩⟩, ?_⟩
    rw [hi]
    exact readPhrase_of_unfinished h hreads.read_eq hfinish
  · refine ⟨i, p, ⟨⟨ls, hdrop ▸ hreads⟩, .inr ⟨c, by rw [← hdrop]; rfl, hc, hdrop ▸ hn⟩⟩, ?_⟩
    have hread : g.initial.read 0 0 text = .error (i, p) := by
      rw [hreads.read_eq, Partial.read, if_neg (by simp [hc]), hn]
    exact readPhrase_of_error h hread

end Goal
end ProbeScript
