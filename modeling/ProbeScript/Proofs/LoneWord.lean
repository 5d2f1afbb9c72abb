import Mathlib.Order.Bounds.Basic
import ProbeScript.Proofs.Text.Digits
import ProbeScript.Proofs.Acceptance
import ProbeScript.Proofs.Tree.Parts

/-! Texts of letters, digits and underscores. Such a text is a name, a literal in one of the four
bases, or wrong behind the longest literal that it begins with. -/
namespace ProbeScript

open Phrase

namespace Radix

/-- The digits of a literal come after the marker of its base. -/
def digitsOf (r : Radix) (w : Text) : Text := w.drop r.marker.length

/-- The marker and then digits of the base, one at least. A decimal literal begins with a zero only
if it is one. -/
def IsLiteral (r : Radix) (w : Text) : Prop :=
  r.marker <+: w ∧ r.digitsOf w ≠ [] ∧ (∀ d ∈ r.digitsOf w, r.isDigit d = true) ∧
    (r = .decimal → w.head? = some '0' → w = ['0'])

instance (r : Radix) : DecidablePred r.IsLiteral := fun w =>
  decidable_of_iff (r.marker <+: w ∧ r.digitsOf w ≠ [] ∧ (r.digitsOf w).all r.isDigit = true ∧
    (r = .decimal → w.head? = some '0' → w = ['0'])) (by rw [IsLiteral, List.all_eq_true])

variable {r r' : Radix} {s w : Text}

theorem spells_iff_isLiteral : (Terminal.ofRadix r).Spells w ↔ r.IsLiteral w := by
  constructor
  · intro h
    obtain ⟨ds, rfl, hne, hall, hzero⟩ := Terminal.spells_ofRadix h
    rw [IsLiteral, digitsOf, List.drop_left]
    refine ⟨List.prefix_append _ _, hne, hall, ?_⟩
    rintro rfl h0
    exact hzero rfl h0
  · rintro ⟨⟨ds, rfl⟩, hne, hall, hzero⟩
    rw [digitsOf, List.drop_left] at hne hall
    refine .numeral r hne hall ?_
    rintro rfl h0
    exact hzero rfl h0

private theorem IsLiteral.head (h : r.IsLiteral w) : ∃ c ∈ w.head?, c.isDigit = true := by
  obtain ⟨⟨ds, rfl⟩, hne, hall, -⟩ := h
  rw [digitsOf, List.drop_left] at hne hall
  cases r
  case decimal =>
    obtain ⟨d, ds, rfl⟩ := List.exists_cons_of_ne_nil hne
    exact ⟨d, rfl, hall d List.mem_cons_self⟩
  all_goals exact ⟨'0', rfl, rfl⟩

/-- A word is a literal in one base at most. -/
theorem IsLiteral.unique (h : r.IsLiteral w) (h' : r'.IsLiteral w) : r = r' := by
  have htakes {r : Radix} (h : r.IsLiteral w) : (Terminal.ofRadix r).Takes w w :=
    ⟨List.prefix_refl w, spells_iff_isLiteral.2 h, fun u hu _ => hu.length_le⟩
  by_contra hne
  rcases Terminal.numerals_differ hne (htakes h) (htakes h') with
    ⟨h0, c, z, hw, -⟩ | ⟨h0, c, z, hw, -⟩
  · cases h0.symm.trans hw
  · cases h0.symm.trans hw

private theorem isLiteral_digit {c : Char} (h : c.isDigit = true) : decimal.IsLiteral [c] :=
  ⟨List.nil_prefix, List.cons_ne_nil _ _, List.forall_mem_singleton.2 h, fun _ h0 => by
    rw [Option.some.inj h0]⟩

/-- The lengths of the literals at the head of a text. -/
def literalLengths (s : Text) : Set Nat :=
  {k | ∃ r : Radix, ∃ w, w <+: s ∧ r.IsLiteral w ∧ w.length = k}

end Radix

namespace Goal

variable {s : Text}

private theorem kept_of_isNameChar (h : ∀ c ∈ s, isNameChar c = true) : Segment.Kept s := by
  refine .word fun c hc => ⟨?_, ?_⟩
  · have hsolid := Terminal.isSolid_of_isNameChar (h c hc)
    rw [Terminal.isSolid, Bool.and_eq_true] at hsolid
    exact hsolid.1
  · rintro rfl
    cases h '/' hc

/-- A text that is a value is read as the value. -/
private theorem read_value {v : Value} (hkept : Segment.Kept s) (hs : v.token.Spelled)
    (hl : v.token.lexeme = ⟨0, s⟩) :
    expression.read s = (v.tree s).mapError (.ofTreeFault s) := by
  let d : expression.Phrase := .one (.value v)
  have hcovers : Covers s (expression.tokens d) := by
    have hword := Terminal.Spells.covers hs
    have htoken : v.token = ⟨v.token.terminal, 0, s⟩ := by rw [← hl]
    rw [hl] at hword
    rwa [← htoken] at hword
  rw [read_of_covers (Text.blanked_of_kept hkept) hcovers]
  exact congrArg _ (Chain.tree_one_eq (.value v))

private theorem read_name (hall : ∀ c ∈ s, isNameChar c = true) (hne : s ≠ [])
    (hstart : ∀ c ∈ s.head?, c.isDigit = false) :
    expression.read s = .ok (.identifier s (some (.between s 0 s.length))) := by
  obtain ⟨c, w, rfl⟩ := List.exists_cons_of_ne_nil hne
  obtain ⟨hc, hw⟩ := List.forall_mem_cons.1 hall
  have hname : isNameStart c = true := by
    rw [isNameChar, Bool.or_eq_true, Text.isAlphanum_iff, hstart c rfl] at hc
    simpa [isNameStart] using hc
  have hread := read_value (v := .name ⟨0, c :: w⟩) (kept_of_isNameChar hall) (.named hname hw) rfl
  rw [hread, Value.tree, Lexeme.span, Lexeme.through, Lexeme.stop, Nat.zero_add]
  rfl

private theorem read_literal {r : Radix} (hall : ∀ c ∈ s, isNameChar c = true)
    (h : r.IsLiteral s) : expression.read s =
      match r.read (r.digitsOf s) with
      | .ok n => .ok (.integer n r.base (some (.between s 0 s.length)))
      | .error count => .error (.digits count) := by
  have hspells := Radix.spells_iff_isLiteral.2 h
  have hread := read_value (v := .integer r ⟨0, s⟩) (kept_of_isNameChar hall) hspells rfl
  rw [hread, Value.tree, Lexeme.span, Lexeme.through, Lexeme.stop, Nat.zero_add, Radix.digitsOf]
  cases r.read (s.drop r.marker.length) with
  | ok n => rfl
  | error count => rfl

/-- The word that reading takes first is the longest literal there. -/
private theorem exists_longest_literal {c : Char} {t : Text} (hc : c.isDigit = true) :
    ∃ r w, expression.initial.next? 0 (c :: t) = some (⟨.ofRadix r, 0, w⟩,
        .afterOperand (.start .alone) (.value (.integer r ⟨0, w⟩))) ∧
      (Terminal.ofRadix r).Takes (c :: t) w ∧
        IsGreatest (Radix.literalLengths (c :: t)) w.length := by
  have hone : Terminal.decimal.word ([c] ++ t) ≠ [] :=
    Terminal.Spells.word_ne_nil (Radix.spells_iff_isLiteral.2 (Radix.isLiteral_digit hc)) t
  have hdecimal : expression.initial.Awaits .decimal := by decide
  obtain ⟨⟨terminal, l⟩, q, hnext⟩ :=
    Partial.exists_next (i := 0) hdecimal (Terminal.takes_word hone)
  obtain ⟨hq, htakes, hstart, hlongest⟩ := Partial.next?_eq_some hnext
  have hawaits : expression.initial.Awaits terminal :=
    Partial.awaits_of_advance (t := ⟨terminal, l⟩) htakes.spells hq
  have hfamily : terminal.family = .decimal := by
    have hspec : terminal ≠ .probeSpec := by
      rintro rfl
      exact absurd hawaits (by decide)
    obtain ⟨w, hw⟩ : ∃ w, l.text = c :: w := by
      obtain ⟨a, w, hw⟩ := List.exists_cons_of_ne_nil htakes.spells.ne_nil
      have hprefix : l.text <+: c :: t := htakes.isPrefix
      rw [hw, List.cons_prefix_cons] at hprefix
      exact ⟨w, hprefix.1 ▸ hw⟩
    have hspells : terminal.Spells (c :: w) := hw ▸ htakes.spells
    exact (hspells.familyAt hspec).symm.trans (Terminal.familyAt_of_isDigit hc)
  obtain ⟨r, rfl⟩ := Partial.exists_radix hfamily
  obtain ⟨start, w⟩ := l
  obtain rfl : start = 0 := hstart
  have hq' : q = .afterOperand (.start .alone) (.value (.integer r ⟨0, w⟩)) := by
    cases r <;> exact (Option.some.inj hq).symm
  refine ⟨r, w, hq' ▸ hnext, htakes,
    ⟨r, w, htakes.isPrefix, Radix.spells_iff_isLiteral.1 htakes.spells, rfl⟩, ?_⟩
  rintro _ ⟨r', w', ⟨v, hv⟩, hliteral, rfl⟩
  have hspells := Radix.spells_iff_isLiteral.2 hliteral
  have hawaits' : expression.initial.Awaits (.ofRadix r') := by cases r' <;> decide
  have htakes' := Terminal.takes_word (hspells.word_ne_nil v)
  rw [hv] at htakes'
  have hle := htakes'.longest w' ⟨v, hv⟩ hspells
  exact hle.trans (hlongest _ _ hawaits' htakes')

/-- Behind a literal no operator begins with a letter, a digit or an underscore. -/
private theorem next?_after_literal {r : Radix} {l : Lexeme} {i : Nat} {c : Char} {t : Text}
    (hc : isNameChar c = true) :
    (Partial.afterOperand (.start .alone) (.value (.integer r l))).next? i (c :: t) = none := by
  rw [Partial.next?_eq_none_iff]
  intro terminal w hawaits htakes
  obtain ⟨a, w, rfl⟩ := List.exists_cons_of_ne_nil htakes.spells.ne_nil
  obtain ⟨rfl, -⟩ := List.cons_prefix_cons.1 htakes.isPrefix
  have hoperator : terminal ∈ [.logical, .relational, .additive, .multiplicative] := hawaits
  have hall : ∀ o ∈ [Terminal.logical, .relational, .additive, .multiplicative],
      o ≠ .probeSpec ∧ o.family ≠ .name ∧ o.family ≠ .decimal := by decide
  obtain ⟨hspec, hname, hdecimal⟩ := hall terminal hoperator
  have hword := htakes.spells.familyAt hspec
  rcases Terminal.familyAt_of_isNameChar hc with h | h
  · exact hname (hword.symm.trans h)
  · exact hdecimal (hword.symm.trans h)

private theorem read_not_literal (hall : ∀ c ∈ s, isNameChar c = true)
    (hstart : ∃ c ∈ s.head?, c.isDigit = true) (hno : ∀ r : Radix, ¬ r.IsLiteral s) :
    ∃ i d, IsGreatest (Radix.literalLengths s) i ∧ expression.read s = .error (.grammatical d) ∧
      d.position = .at s i := by
  obtain ⟨c, hc, hdigit⟩ := hstart
  obtain ⟨t, rfl⟩ := List.head?_eq_some_iff.1 hc
  obtain ⟨r, w, hnext, htakes, hgreatest⟩ := exists_longest_literal (t := t) hdigit
  obtain ⟨v, hv⟩ := htakes.isPrefix
  have hlayout {b : Char} (hb : b ∈ c :: t) : Text.isLayout b = false := by
    have hsolid := Terminal.isSolid_of_isNameChar (hall b hb)
    rw [Terminal.isSolid, Bool.and_eq_true, Bool.not_eq_true'] at hsolid
    exact hsolid.2
  -- the literal is not all of the text, so a character comes after it
  obtain ⟨a, v, rfl⟩ : ∃ a u, v = a :: u := by
    refine List.exists_cons_of_ne_nil ?_
    rintro rfl
    rw [List.append_nil] at hv
    exact hno r (Radix.spells_iff_isLiteral.1 (hv ▸ htakes.spells))
  have ha : a ∈ c :: t := by
    rw [← hv]
    exact List.mem_append_right w List.mem_cons_self
  have hreads := Partial.Reads.word (hlayout List.mem_cons_self) hnext (.done _ _ _)
  have hread := hreads.read_eq
  dsimp only at hread
  rw [← hv, List.drop_left, Nat.zero_add, Partial.read, if_neg (by simp [hlayout ha]),
    next?_after_literal (hall a ha), hv] at hread
  have hblanked := Text.blanked_of_kept (kept_of_isNameChar hall)
  exact ⟨w.length, _, hgreatest, read_of_error hblanked hread, rfl⟩

/-- A text of letters, digits and underscores that begins with no digit is a name. One that is a
literal of some base, and it is so of one base only, stands for the number of its digits, unless it
is in decimal and has more of these than the limit. Any other is refused, behind the longest literal
that it begins with. -/
theorem read_name_or_literal (s : Text) (hne : s ≠ []) (hall : ∀ c ∈ s, isNameChar c = true) :
    ((∀ c ∈ s.head?, c.isDigit = false) →
      expression.read s = .ok (.identifier s (some (.between s 0 s.length))) ∧
        ∀ r : Radix, ¬ r.IsLiteral s) ∧
    (∀ r r' : Radix, r.IsLiteral s → r'.IsLiteral s → r = r') ∧
    (∀ r : Radix, r.IsLiteral s → (r = .decimal → s.length ≤ 4300) →
      expression.read s = .ok (.integer
        (Nat.ofDigits r.base ((r.digitsOf s).reverse.map Radix.worth) : Nat) r.base
        (some (.between s 0 s.length)))) ∧
    (Radix.decimal.IsLiteral s → 4300 < s.length →
      expression.read s = .error (.digits s.length)) ∧
    ((∃ c ∈ s.head?, c.isDigit = true) → (∀ r : Radix, ¬ r.IsLiteral s) →
      ∃ i d, IsGreatest (Radix.literalLengths s) i ∧
        expression.read s = .error (.grammatical d) ∧ d.position = .at s i) := by
  refine ⟨fun hstart => ⟨read_name hall hne hstart, fun r h => ?_⟩, fun r r' h h' => h.unique h',
    fun r h hlimit => ?_, fun h hlimit => ?_, read_not_literal hall⟩
  · obtain ⟨c, hc, hdigit⟩ := h.head
    rw [hstart c hc] at hdigit
    cases hdigit
  · have hvalue : r.read (r.digitsOf s) = .ok (r.value (r.digitsOf s)) :=
      Radix.read_eq_ok_iff.2 ⟨rfl, by rintro rfl; exact hlimit rfl⟩
    rw [read_literal hall h, hvalue, Radix.value_eq_ofDigits]
  · have htoolong : Radix.decimal.read (Radix.decimal.digitsOf s) = .error s.length :=
      if_pos ⟨rfl, hlimit⟩
    rw [read_literal hall h, htoolong]

/-- A literal in octal, and a digit behind it that is not. -/
theorem read_name_or_literal_octal : ("018".toList ≠ [] ∧ ∀ c ∈ "018".toList, isNameChar c = true) ∧
    ∃ d, expression.read "018".toList = .error (.grammatical d) ∧ d.position = ⟨2, 1, 3⟩ := by
  have hne : "018".toList ≠ [] := by decide
  have hall : ∀ c ∈ "018".toList, isNameChar c = true := Text.forall_mem_of_all (by decide)
  have hno (r : Radix) : ¬ r.IsLiteral "018".toList := by cases r <;> decide
  obtain ⟨i, d, hgreatest, hread, hposition⟩ :=
    (read_name_or_literal _ hne hall).2.2.2.2 ⟨'0', rfl, rfl⟩ hno
  have hge : 2 ≤ i := hgreatest.2 ⟨.octal, "01".toList, by decide, by decide, rfl⟩
  have hlt : i < 3 := by
    obtain ⟨r, w, hw, hliteral, rfl⟩ := hgreatest.1
    refine Nat.lt_of_le_of_ne hw.length_le fun hlength => hno r ?_
    rwa [hw.eq_of_length hlength] at hliteral
  obtain rfl : i = 2 := by omega
  exact ⟨⟨hne, hall⟩, d, hread, hposition⟩

end Goal
end ProbeScript
