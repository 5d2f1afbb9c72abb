import ProbeScript.Proofs.Phrase.Excerpt
import ProbeScript.Proofs.Phrase.Growth

/-! What may come after a token. The reader goes from token to token, and each place waits for some
terminals only; so what comes next cannot run on from a numeral, from a sign of equality, or, but
for event specifications, to a colon. -/
namespace ProbeScript.Phrase

namespace Scans
variable {i j : Nat} {c : Char} {t : Text} {ts : List Token}

/-- White space has no part in the tokens. -/
theorem of_layout (h : Scans i (c :: t) ts j []) (hc : Text.isLayout c = true) :
    Scans (i + 1) t ts j [] := by
  generalize hu : c :: t = u at h
  cases h with
  | done => cases hu
  | layout _ h =>
    obtain ⟨rfl, rfl⟩ := List.cons.inj hu
    exact h
  | token hw =>
    rw [← hu] at hw
    rw [hw.isLayout_head c rfl] at hc
    cases hc

theorem drop_layout {f : Text} (h : Scans i (f ++ t) ts j [])
    (hf : ∀ c ∈ f, Text.isLayout c = true) : Scans (i + f.length) t ts j [] := by
  induction f generalizing i with
  | nil => exact h
  | cons c f ih =>
    obtain ⟨hc, hf⟩ := List.forall_mem_cons.1 hf
    have hrest := ih (h.of_layout hc) hf
    rwa [Nat.add_assoc, Nat.add_comm 1] at hrest

/-- Where no tokens are read white space is. -/
theorem exists_gap {u : Text} (h : Scans i t [] j u) :
    ∃ gap, t = gap ++ u ∧ j = i + gap.length ∧ ∀ c ∈ gap, Text.isLayout c = true := by
  generalize hs : ([] : List Token) = us at h
  induction h with
  | done => exact ⟨[], rfl, rfl, by simp⟩
  | @layout i _ c _ _ _ hc _ ih =>
    obtain ⟨gap, rfl, rfl, hgap⟩ := ih hs
    exact ⟨c :: gap, rfl, by rw [List.length_cons]; omega, List.forall_mem_cons.2 ⟨hc, hgap⟩⟩
  | token => cases hs

/-- Between one token and the next there is only white space. -/
theorem exists_between {x y : Token} {pre post : List Token}
    (h : Scans 0 t (pre ++ x :: y :: post) j []) :
    ∃ gap r, t.drop x.lexeme.stop = gap ++ (y.lexeme.text ++ r) ∧
      y.lexeme.start = x.lexeme.stop + gap.length ∧ ∀ c ∈ gap, Text.isLayout c = true := by
  obtain ⟨u, hpre, hx, hrest⟩ := h.split_at
  obtain ⟨s, rfl, hs, -⟩ := hpre.exists_read
  obtain ⟨v, hlayout, hy, -⟩ := hrest.exists_takes
  obtain ⟨gap, hgap, hstart, hall⟩ := hlayout.exists_gap
  obtain ⟨r, rfl⟩ := hy.isPrefix
  refine ⟨gap, r, ?_, hstart, hall⟩
  rw [Lexeme.stop, hs, Nat.zero_add, ← List.drop_drop, List.drop_left]
  exact hgap

theorem tokens_eq_nil (h : Scans i [] ts j []) : ts = [] := by
  cases h with
  | done => rfl
  | token hw => exact absurd (List.prefix_nil.1 hw.isPrefix) hw.spells.ne_nil

/-- White space at the end has no part in the tokens either. -/
theorem drop_last (h : Scans i (t ++ [c]) ts j []) (hc : Text.isLayout c = true) :
    ∃ k, Scans i t ts k [] := by
  generalize hu : t ++ [c] = u at h
  generalize hv : ([] : Text) = v at h
  induction h generalizing t with
  | done =>
    subst hv
    exact absurd hu (List.append_ne_nil_of_right_ne_nil t (List.cons_ne_nil _ _))
  | @layout i j d u v ts hd h ih =>
    cases t with
    | nil =>
      obtain ⟨rfl, rfl⟩ := List.cons.inj hu
      subst hv
      rw [h.tokens_eq_nil]
      exact ⟨i, .done i []⟩
    | cons a t =>
      obtain ⟨rfl, rfl⟩ := List.cons.inj hu
      obtain ⟨k, hk⟩ := ih rfl hv
      exact ⟨k, .layout hd hk⟩
  | @token i j terminal u w v ts hw h ih =>
    obtain ⟨rest, rfl⟩ := hw.isPrefix
    rw [List.drop_left] at ih
    rcases List.eq_nil_or_concat' rest with rfl | ⟨rest, d, rfl⟩
    · -- a word does not end in white space
      rw [List.append_nil] at hu
      have hspace := (hu ▸ hw.spells : terminal.Spells (t ++ [c])).isSpace_last
      rw [Text.isSpace_of_isLayout hc] at hspace
      cases hspace
    · rw [← List.append_assoc] at hu
      obtain ⟨rfl, hd⟩ := List.append_inj' hu rfl
      obtain rfl := List.singleton_inj.1 hd
      obtain ⟨k, hk⟩ := ih rfl hv
      obtain ⟨hspells, hstop⟩ := Terminal.takes_append_iff.1 hw
      have hw' : terminal.Takes (w ++ rest) w := by
        refine Terminal.takes_append_iff.2 ⟨hspells, fun a ha => hstop a ?_⟩
        obtain ⟨rest, rfl⟩ := List.head?_eq_some_iff.1 ha
        rfl
      refine ⟨k, .token hw' ?_⟩
      rwa [List.drop_left]

/-- Where no white space stands a token does. -/
theorem exists_token (h : Scans i (c :: t) ts j []) (hc : Text.isLayout c = false) :
    ∃ x us, ts = x :: us ∧ x.lexeme.start = i ∧ x.terminal.Takes (c :: t) x.lexeme.text ∧
      Scans x.lexeme.stop ((c :: t).drop x.lexeme.text.length) us j [] := by
  generalize hu : c :: t = u at h
  cases h with
  | done => cases hu
  | layout hc' =>
    obtain ⟨rfl, rfl⟩ := List.cons.inj hu
    rw [hc] at hc'
    cases hc'
  | token hw h => exact ⟨_, _, rfl, rfl, hu ▸ hw, hu ▸ h⟩

end Scans

namespace Partial
variable {p q : Partial} {i j : Nat} {c : Char} {t u : Text} {x : Token} {ts : List Token}

/-- Where no white space comes next, a word comes of a terminal that is waited for. -/
private theorem exists_awaits_of_scans (h : Scans i (c :: t) ts j []) (hr : p.run ts = some q)
    (hc : Text.isLayout c = false) :
    ∃ terminal w, p.Awaits terminal ∧ terminal.Spells (c :: w) := by
  obtain ⟨⟨terminal, k, w⟩, us, rfl, -, hw, -⟩ := h.exists_token hc
  obtain ⟨p', hp', -⟩ := run_cons.1 hr
  have ha := awaits_of_advance (t := ⟨terminal, k, w⟩) hw.spells hp'
  obtain ⟨d, w, rfl⟩ := List.exists_cons_of_ne_nil hw.spells.ne_nil
  obtain rfl := (List.cons_prefix_cons.1 hw.isPrefix).1
  exact ⟨terminal, w, ha, hw.spells⟩

/-- After a numeral no letter and no digit comes. -/
theorem not_isAlphanum_of_scans {q' : Partial} (h : Scans i t ts j []) (hx : p.advance x = some q)
    (hr : q.run ts = some q') {r : Radix} (hterminal : x.terminal = .ofRadix r) :
    ∀ c ∈ t.head?, c.isAlphanum = false := by
  obtain ⟨terminal, l⟩ := x
  obtain rfl : terminal = .ofRadix r := hterminal
  intro c hc
  obtain ⟨t, rfl⟩ := List.head?_eq_some_iff.1 hc
  by_contra hn
  rw [Bool.not_eq_false] at hn
  obtain ⟨terminal, w, ha, hw⟩ := exists_awaits_of_scans h hr (Text.isLayout_of_isAlphanum hn)
  rw [not_isAlphanum_after_numeral hx ha hw] at hn
  cases hn

/-- After a sign of equality no other comes. -/
theorem ne_equal_of_scans {q' : Partial} (h : Scans i t ts j []) (hs : x.Spelled)
    (hx : p.advance x = some q) (hr : q.run ts = some q') (hterminal : x.terminal = .equal) :
    ∀ c ∈ t.head?, c ≠ '=' := by
  rintro c hc rfl
  obtain ⟨t, rfl⟩ := List.head?_eq_some_iff.1 hc
  obtain ⟨terminal, w, ha, hw⟩ := exists_awaits_of_scans h hr rfl
  have hall : ∀ a ∈ q.alternatives, a ≠ .probeSpec ∧ a.family ≠ .relational := by
    cases step_of_advance hs hx with
    | value before v =>
      rcases v with _ | _ | ⟨_ | _ | _ | _, _⟩ <;> cases hterminal
    | assign | join | tupleValue => simp only [alternatives]; decide
    | _ => cases hterminal
  obtain ⟨hspec, hfamily⟩ := hall terminal ha.mem_alternatives
  exact hfamily (hw.familyAt hspec).symm

/-- An event specification is waited for at the start and after a brace. -/
private theorem rbrace_of_awaits_probeSpec (hs : x.Spelled) (hx : p.advance x = some q)
    (hq : q.Awaits .probeSpec) : x.terminal = .rbrace := by
  obtain ⟨done, rfl⟩ : ∃ done, q = probeDue done := by
    have := hq.mem_alternatives
    cases q <;> simp [alternatives] at this
    exact ⟨_, rfl⟩
  have hstep := step_of_advance hs hx
  generalize hy : probeDue done = y at hstep
  cases hstep with
  | closeBody => rfl
  | @closeBare call | @closeAfterChain _ call | closeAfterTuple call => cases call <;> cases hy
  | _ => cases hy

/-- No colon comes before white space, a slash or the like, but in an event specification. -/
theorem colon_not_mem_of_scans (h : Scans i t ts j []) (hr : p.run ts = some q)
    (hp : ¬ p.Awaits .probeSpec) : ':' ∉ Terminal.probeSpec.word t := by
  generalize hu : ([] : Text) = u at h
  induction h generalizing p with
  | done => subst hu; simp [Terminal.word]
  | @layout _ _ c t _ _ hc _ ih =>
    have hstop : Terminal.probeSpec.goesOn [] c = false :=
      Terminal.goesOn_of_mem_separators (Terminal.mem_separators_of_isLayout hc)
    rw [Terminal.goesOn] at hstop
    rw [Terminal.word, List.takeWhile_cons, if_neg (by simp [hstop])]
    exact List.not_mem_nil
  | @token i _ terminal t w _ ts hw _ ih =>
    obtain ⟨p', hp', hr'⟩ := run_cons.1 hr
    have hx : (⟨terminal, i, w⟩ : Token).Spelled := hw.spells
    have hspec : terminal ≠ .probeSpec := by
      rintro rfl
      exact hp (awaits_of_advance hx hp')
    obtain ⟨v, rfl⟩ := hw.isPrefix
    rw [List.drop_left] at ih
    by_cases hstring : terminal = .string
    · subst hstring
      obtain ⟨inner, -, rfl⟩ := Terminal.spells_string hw.spells
      exact List.not_mem_nil
    · have hword : ':' ∉ w := hw.spells.colon_not_mem hstring hspec
      rw [Terminal.word, List.takeWhile_append]
      split
      case isFalse => exact fun hc => hword ((List.takeWhile_sublist _).mem hc)
      case isTrue hlen =>
        have hall := (List.takeWhile_prefix _).eq_of_length hlen
        have hv : ':' ∉ Terminal.probeSpec.word v := by
          refine ih hr' (fun hq => ?_) hu
          obtain rfl : terminal = .rbrace := rbrace_of_awaits_probeSpec hx hp' hq
          obtain rfl := Terminal.spells_punctuation rfl hw.spells
          cases hall
        exact fun hc => (List.mem_append.1 hc).elim hword hv

end Partial
end ProbeScript.Phrase
