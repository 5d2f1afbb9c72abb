import ProbeScript.Proofs.Fault

/-! Which texts are accepted, and as what. Reading has four ways to end: the text does not fall into
segments, no derivation covers it, a token of its derivation is at fault, or there is a tree. -/
namespace ProbeScript

open Phrase

/-- An event specification has four parts at most, and a decimal literal keeps within the limit. -/
def Phrase.Token.WithinLimits (t : Token) : Prop :=
  (t.terminal = .probeSpec → t.lexeme.text.count ':' ≤ 3) ∧
    (t.terminal = .decimal → t.lexeme.text.length ≤ 4300)

private theorem withinLimits_iff {t : Token} : t.WithinLimits ↔ t.fault? = none := by
  obtain ⟨terminal, l⟩ := t
  cases terminal
  case decimal =>
    by_cases h : 4300 < l.text.length
    · simp [Token.WithinLimits, Token.fault?, Radix.digitLimit, h]
    · simp [Token.WithinLimits, Token.fault?, Radix.digitLimit, h]
      omega
  all_goals simp [Token.WithinLimits, Token.fault?]

/-- No rule of the grammar has the name under which a bad event specification is reported. -/
private theorem ruleText_ne (rules : List Rule) :
    Diagnostic.ruleText rules ≠ some "probe_spec".toList := by
  intro h
  rcases rules with _ | ⟨r, _ | ⟨s, rules⟩⟩
  · cases h
  · have htitle : r.title ≠ "probe_spec".toList := by cases r <;> decide
    apply htitle
    simpa [Diagnostic.ruleText] using h
  · have hspace : ' ' ∈ List.intercalate " | ".toList ((r :: s :: rules).map (·.title)) := by
      simp [List.intercalate]
    rw [Diagnostic.ruleText, if_neg (by simp)] at h
    rw [Option.some.inj h] at hspace
    revert hspace
    decide

namespace Goal
variable {g : Goal} {source text : Text} {d : g.Phrase}

theorem read_of_fault {fault : Segment.Fault} (h : Text.blanked source = .error fault) :
    g.read source = .error (.lexical (.ofFault source fault)) := by
  rw [read_eq, readPhrase_of_fault h]
  rfl

theorem read_of_covers (h : Text.blanked source = .ok text) (hd : Covers text (g.tokens d)) :
    g.read source = (g.tree source d).mapError (.ofTreeFault source) := by
  rw [read_eq, readPhrase_of_covers h hd]
  rfl

/-- A text without comments is read into the tree of what the reader makes of it. -/
theorem read_of_kept {n : Node} (h : Segment.Kept source)
    (hr : g.initial.read 0 0 source = .ok (g.final d)) (hn : g.tree source d = .ok n) :
    g.read source = .ok n := by
  rw [read_of_covers (Text.blanked_of_kept h) (read_eq_ok_iff.1 hr), hn]
  rfl

theorem read_of_error {i : Nat} {p : Partial} (h : Text.blanked source = .ok text)
    (hr : g.initial.read 0 0 text = .error (i, p)) :
    g.read source = .error (.grammatical (.ofStop source i p.waiting)) := by
  rw [read_eq, readPhrase_of_error h hr]
  rfl

theorem read_of_unfinished {p : Partial} (h : Text.blanked source = .ok text)
    (hr : g.initial.read 0 0 text = .ok p) (hf : g.finish p = none) :
    g.read source = .error (.grammatical (.ofStop source source.length p.waiting)) := by
  rw [read_eq, readPhrase_of_unfinished h hr hf]
  rfl

theorem read_of_stop (h : Text.blanked source = .ok text)
    (hno : ∀ d, ¬ Covers text (g.tokens d)) : ∃ i p, g.Stops text i p ∧
      g.read source = .error (.grammatical (.ofStop source i p.waiting)) := by
  obtain ⟨i, p, hstop, hread⟩ := exists_stop h hno
  refine ⟨i, p, hstop, ?_⟩
  rw [read_eq, hread]
  rfl

private theorem checks_eq_none (h : ∀ t ∈ g.tokens d, t.WithinLimits) :
    (g.checks d).findSome? Token.fault? = none := by
  rw [List.findSome?_eq_none_iff]
  intro t ht
  by_contra hne
  exact hne (withinLimits_iff.1 (h t ((mem_checks hne).1 ht)))

private theorem exists_fault {t : Token} (ht : t ∈ g.tokens d) (h : ¬ t.WithinLimits) :
    ∃ fault, (g.checks d).findSome? Token.fault? = some fault := by
  rw [withinLimits_iff] at h
  have hmem := (mem_checks h).2 ht
  cases hf : (g.checks d).findSome? Token.fault? with
  | some fault => exact ⟨fault, rfl⟩
  | none => exact absurd (List.findSome?_eq_none_iff.1 hf t hmem) h

theorem read_of_fault_token {fault : TreeFault} (h : Text.blanked source = .ok text)
    (hd : Covers text (g.tokens d)) (hf : (g.checks d).findSome? Token.fault? = some fault) :
    g.read source = .error (.ofTreeFault source fault) := by
  have htree : Checks (g.tree source d) (g.checks d) := tree_checks hd.spelled
  rw [Checks, hf] at htree
  rw [read_of_covers h hd, htree]
  rfl

/-- A derivation whose tokens are not at fault has a tree. -/
theorem exists_tree (hd : Covers text (g.tokens d))
    (hf : (g.checks d).findSome? Token.fault? = none) : ∃ n, g.tree source d = .ok n := by
  have htree : Checks (g.tree source d) (g.checks d) := tree_checks hd.spelled
  rwa [Checks, hf] at htree

theorem fault?_of_tree {n : Node} (hd : Covers text (g.tokens d)) (hn : g.tree source d = .ok n) :
    (g.checks d).findSome? Token.fault? = none := by
  have htree : Checks (g.tree source d) (g.checks d) := tree_checks hd.spelled
  cases hf : (g.checks d).findSome? Token.fault? with
  | none => rfl
  | some fault =>
    rw [Checks, hf, hn] at htree
    cases htree

private theorem exists_read (h : Text.blanked source = .ok text) (hd : Covers text (g.tokens d))
    (hlimits : ∀ t ∈ g.tokens d, t.WithinLimits) : ∃ n, g.read source = .ok n := by
  obtain ⟨n, hn⟩ := exists_tree hd (checks_eq_none hlimits)
  exact ⟨n, by rw [read_of_covers h hd, hn]; rfl⟩

/-- How reading a text ends. -/
inductive Ends (g : Goal) (source : Text) : Except ReadError Node → Prop
  | fault {f : Segment.Fault} : Text.blanked source = .error f →
      Ends g source (.error (.lexical (.ofFault source f)))
  | stop {text : Text} {i : Nat} {p : Partial} : Text.blanked source = .ok text →
      g.Stops text i p → Ends g source (.error (.grammatical (.ofStop source i p.waiting)))
  | limit {text : Text} {d : g.Phrase} {f : TreeFault} : Text.blanked source = .ok text →
      Covers text (g.tokens d) → (g.checks d).findSome? Token.fault? = some f →
      Ends g source (.error (.ofTreeFault source f))
  | tree {text : Text} {d : g.Phrase} {n : Node} : Text.blanked source = .ok text →
      Covers text (g.tokens d) → g.tree source d = .ok n → Ends g source (.ok n)

theorem read_ends (g : Goal) (source : Text) : g.Ends source (g.read source) := by
  cases hb : Text.blanked source with
  | error f =>
    rw [read_of_fault hb]
    exact .fault hb
  | ok text =>
    by_cases hcovers : ∃ d, Covers text (g.tokens d)
    · obtain ⟨d, hd⟩ := hcovers
      cases hf : (g.checks d).findSome? Token.fault? with
      | some f =>
        rw [read_of_fault_token hb hd hf]
        exact .limit hb hd hf
      | none =>
        obtain ⟨n, hn⟩ := exists_tree hd hf
        rw [read_of_covers hb hd, hn]
        exact .tree hb hd hn
    · obtain ⟨i, p, hstop, hread⟩ := read_of_stop hb (not_exists.1 hcovers)
      rw [hread]
      exact .stop hb hstop

/-- An accepted text has a derivation, whose tree is the one returned. -/
theorem exists_covers_of_read {n : Node} (h : g.read source = .ok n) :
    ∃ text d, Text.blanked source = .ok text ∧ Covers text (g.tokens d) ∧
      g.tree source d = .ok n := by
  cases h ▸ read_ends g source with
  | tree hb hd hn => exact ⟨_, _, hb, hd, hn⟩

/-- A text is accepted exactly if it falls into segments and has a derivation whose tokens keep
within the limits, and the tree is that of a derivation. Otherwise the first of these to fail is
reported; of the tokens, the first in the order in which they are checked. -/
theorem read_exact (g : Goal) (source : Text) :
    ((∃ n, g.read source = .ok n) ↔ ∃ text d, Text.blanked source = .ok text ∧
      Covers text (g.tokens d) ∧ ∀ t ∈ g.tokens d, t.WithinLimits) ∧
    (∀ n, g.read source = .ok n → ∃ text d, Text.blanked source = .ok text ∧
      Covers text (g.tokens d) ∧ g.tree source d = .ok n) ∧
    (∀ fault, Text.blanked source = .error fault →
      g.read source = .error (.lexical (.ofFault source fault))) ∧
    (∀ text, Text.blanked source = .ok text → (¬ ∃ d, Covers text (g.tokens d)) →
      ∃ diagnostic, g.read source = .error (.grammatical diagnostic) ∧
        diagnostic.rule ≠ some "probe_spec".toList) ∧
    (∀ text d, Text.blanked source = .ok text → Covers text (g.tokens d) →
      (¬ ∀ t ∈ g.tokens d, t.WithinLimits) → ∃ fault,
        (g.checks d).findSome? Token.fault? = some fault ∧
          g.read source = .error (.ofTreeFault source fault)) := by
  refine ⟨⟨?_, ?_⟩, ?_, ?_, ?_, ?_⟩
  · rintro ⟨n, hn⟩
    obtain ⟨text, d, hb, hd, -⟩ := exists_covers_of_read hn
    refine ⟨text, d, hb, hd, ?_⟩
    by_contra hlimits
    obtain ⟨t, ht, hlimits⟩ : ∃ t, t ∈ g.tokens d ∧ ¬ t.WithinLimits := by simpa using hlimits
    obtain ⟨fault, hf⟩ := exists_fault ht hlimits
    rw [read_of_fault_token hb hd hf] at hn
    cases hn
  · rintro ⟨text, d, hb, hd, hlimits⟩
    exact exists_read hb hd hlimits
  · exact fun n => exists_covers_of_read
  · exact fun fault => read_of_fault
  · intro text hb hno
    obtain ⟨i, p, -, hread⟩ := read_of_stop hb (not_exists.1 hno)
    exact ⟨_, hread, ruleText_ne _⟩
  · intro text d hb hd hlimits
    obtain ⟨t, ht, hlimits⟩ : ∃ t, t ∈ g.tokens d ∧ ¬ t.WithinLimits := by simpa using hlimits
    obtain ⟨fault, hf⟩ := exists_fault ht hlimits
    exact ⟨fault, hf, read_of_fault_token hb hd hf⟩

/-- A text has one derivation at most, and this derivation decides what the text is read as. -/
theorem derivation_unique (g : Goal) (text : Text) :
    (∀ d d' : g.Phrase, Covers text (g.tokens d) → Covers text (g.tokens d') → d = d') ∧
    ∀ source d, Text.blanked source = .ok text → Covers text (g.tokens d) →
      g.read source = (g.tree source d).mapError (.ofTreeFault source) :=
  ⟨fun _ _ => covers_unique, fun _ _ => read_of_covers⟩

end Goal
end ProbeScript
