import ProbeScript.Proofs.Phrase.Step

/-! What the reader does to a text, a word at a time. The words it takes are those of any row of
tokens that the phrase can go through, so what was read before a place does not depend on the text
after it. -/
namespace ProbeScript.Phrase

namespace Partial
variable {p q p' q' : Partial} {i j k : Nat} {t u v : Text} {ls ls' : List Lexeme}

/-- The phrase after all the tokens, if each can go where it comes. -/
def run (p : Partial) (ts : List Token) : Option Partial := ts.foldlM advance p

@[simp] theorem run_nil : p.run [] = some p := rfl

theorem run_cons {x : Token} {ts : List Token} :
    p.run (x :: ts) = some q ↔ ∃ p', p.advance x = some p' ∧ p'.run ts = some q := by
  rw [run, List.foldlM_cons]
  exact Option.bind_eq_some_iff

theorem run_append {ts us : List Token} :
    p.run (ts ++ us) = some q ↔ ∃ p', p.run ts = some p' ∧ p'.run us = some q := by
  rw [run, List.foldlM_append]
  exact Option.bind_eq_some_iff

/-! The choice of the next token. -/

private theorem longest_eq_none {ts : List Token} : longest ts = none ↔ ts = [] := by
  cases ts with
  | nil => simp [longest]
  | cons x ts =>
    rw [longest]
    split
    · simp
    · split <;> simp

private theorem longest_spec {x : Token} {ts : List Token} (h : longest ts = some x) :
    x ∈ ts ∧ ∀ y ∈ ts, y.lexeme.text.length ≤ x.lexeme.text.length := by
  induction ts generalizing x with
  | nil => cases h
  | cons y ts ih =>
    rw [longest] at h
    split at h
    case h_1 hn =>
      obtain rfl := Option.some.inj h
      rw [longest_eq_none.1 hn]
      simp
    case h_2 z hz =>
      obtain ⟨hmem, hle⟩ := ih hz
      split at h
      case isTrue hzy =>
        obtain rfl := Option.some.inj h
        refine ⟨List.mem_cons_self, List.forall_mem_cons.2 ⟨le_refl _, fun a ha => ?_⟩⟩
        exact (hle a ha).trans hzy
      case isFalse hzy =>
        obtain rfl := Option.some.inj h
        exact ⟨List.mem_cons_of_mem _ hmem, List.forall_mem_cons.2 ⟨by omega, hle⟩⟩

private theorem mem_candidates {x : Token} : x ∈ p.candidates i t ↔
    p.Awaits x.terminal ∧ x.terminal.Takes t x.lexeme.text ∧ x.lexeme.start = i := by
  rw [candidates, List.mem_filter, List.mem_map, Awaits, List.mem_map, Terminal.takes_iff]
  constructor
  · rintro ⟨⟨item, hitem, rfl⟩, hne⟩
    exact ⟨⟨item, hitem, rfl⟩, ⟨by simpa using hne, rfl⟩, rfl⟩
  · obtain ⟨terminal, start, text⟩ := x
    rintro ⟨⟨item, hitem, rfl⟩, ⟨hne, hw⟩, rfl⟩
    obtain rfl : item.terminal.word t = text := hw
    exact ⟨⟨item, hitem, rfl⟩, by simpa using hne⟩

/-- The token that comes next is waited for and takes its word from the text; no token that is
waited for takes a longer one. -/
theorem next?_eq_some {x : Token} (h : p.next? i t = some (x, q)) :
    p.advance x = some q ∧ x.terminal.Takes t x.lexeme.text ∧ x.lexeme.start = i ∧
      ∀ terminal w, p.Awaits terminal → terminal.Takes t w →
        w.length ≤ x.lexeme.text.length := by
  rw [next?] at h
  split at h
  case h_1 => cases h
  case h_2 y hy =>
    obtain ⟨q', hq, he⟩ := Option.map_eq_some_iff.1 h
    obtain ⟨rfl, rfl⟩ := Prod.mk.inj he
    obtain ⟨hmem, hle⟩ := longest_spec hy
    obtain ⟨-, htakes, hstart⟩ := mem_candidates.1 hmem
    exact ⟨hq, htakes, hstart, fun terminal w ha hw =>
      hle ⟨terminal, i, w⟩ (mem_candidates.2 ⟨ha, hw, rfl⟩)⟩

/-- Reading stops where no terminal that is waited for takes a word. -/
theorem next?_eq_none_iff :
    p.next? i t = none ↔ ∀ terminal w, p.Awaits terminal → ¬ terminal.Takes t w := by
  rw [next?]
  constructor
  · intro h terminal w ha hw
    split at h
    case h_1 hn =>
      have hmem : (⟨terminal, i, w⟩ : Token) ∈ p.candidates i t := mem_candidates.2 ⟨ha, hw, rfl⟩
      rw [longest_eq_none.1 hn] at hmem
      cases hmem
    case h_2 x hx =>
      obtain ⟨hax, hw, -⟩ := mem_candidates.1 (longest_spec hx).1
      obtain ⟨q, hq⟩ := exists_advance (t := x) hw.spells hax
      rw [hq] at h
      cases h
  · intro h
    have hn : longest (p.candidates i t) = none := by
      refine longest_eq_none.2 (List.eq_nil_iff_forall_not_mem.2 fun x hx => ?_)
      obtain ⟨ha, hw, -⟩ := mem_candidates.1 hx
      exact h _ _ ha hw
    rw [hn]

/-- Reading goes on wherever a terminal that is waited for takes a word. -/
theorem exists_next {terminal : Terminal} {w : Text} (ha : p.Awaits terminal)
    (hw : terminal.Takes t w) : ∃ x q, p.next? i t = some (x, q) := by
  cases h : p.next? i t with
  | none => exact absurd hw (next?_eq_none_iff.1 h _ _ ha)
  | some r => exact ⟨r.1, r.2, rfl⟩

/-- From a phrase and a text whose first character is at the index, the reader comes through the
words to another phrase and what is left of the text. -/
inductive Reads : Partial → Nat → Text → List Lexeme → Partial → Nat → Text → Prop
  | done (p : Partial) (i : Nat) (t : Text) : Reads p i t [] p i t
  | layout {p q : Partial} {i j : Nat} {c : Char} {t u : Text} {ls : List Lexeme} :
      Text.isLayout c = true → Reads p (i + 1) t ls q j u → Reads p i (c :: t) ls q j u
  | word {p p' q : Partial} {i j : Nat} {c : Char} {t u : Text} {x : Token} {ls : List Lexeme} :
      Text.isLayout c = false → p.next? i (c :: t) = some (x, p') →
      Reads p' (i + x.lexeme.text.length) ((c :: t).drop x.lexeme.text.length) ls q j u →
      Reads p i (c :: t) (x.lexeme :: ls) q j u

private theorem read_passing (h : k ≤ t.length) : p.read i k t = p.read (i + k) 0 (t.drop k) := by
  induction k generalizing i t with
  | zero => rfl
  | succ k ih =>
    cases t with
    | nil => simp at h
    | cons c t =>
      rw [read, ih (by simpa using h), List.drop_succ_cons, Nat.add_right_comm, Nat.add_assoc]

private theorem read_word {c : Char} {x : Token} (hc : Text.isLayout c = false)
    (h : p.next? i (c :: t) = some (x, p')) : p.read i 0 (c :: t) =
      p'.read (i + x.lexeme.text.length) 0 ((c :: t).drop x.lexeme.text.length) := by
  obtain ⟨-, hw, -⟩ := next?_eq_some h
  have hle := hw.isPrefix.length_le
  have hpos := List.length_pos_iff.2 hw.spells.ne_nil
  rw [List.length_cons] at hle
  rw [read, if_neg (by simp [hc]), h]
  dsimp only
  rw [read_passing (by omega)]
  obtain ⟨n, hn⟩ : ∃ n, x.lexeme.text.length = n + 1 := ⟨_, (Nat.succ_pred_eq_of_pos hpos).symm⟩
  rw [hn, List.drop_succ_cons, Nat.add_sub_cancel, Nat.add_right_comm, Nat.add_assoc]

theorem Reads.read_eq (h : Reads p i t ls q j u) : p.read i 0 t = q.read j 0 u := by
  induction h with
  | done => rfl
  | layout hc _ ih => rw [read, if_pos hc, ih]
  | word hc hn _ ih => rw [read_word hc hn, ih]

/-- The reader comes to the end of the text, or stops before a character that is no white space
and where nothing that the phrase waits for takes a word. -/
theorem exists_reads (p : Partial) (i : Nat) (t : Text) : ∃ ls q j u, Reads p i t ls q j u ∧
    (u = [] ∨ ∃ c v, u = c :: v ∧ Text.isLayout c = false ∧ q.next? j u = none) := by
  match t with
  | [] => exact ⟨[], p, i, [], .done p i [], .inl rfl⟩
  | c :: t =>
    by_cases hc : Text.isLayout c = true
    · obtain ⟨ls, q, j, u, h, hend⟩ := exists_reads p (i + 1) t
      exact ⟨ls, q, j, u, .layout hc h, hend⟩
    · rw [Bool.not_eq_true] at hc
      cases hn : p.next? i (c :: t) with
      | none => exact ⟨[], p, i, c :: t, .done p i _, .inr ⟨c, t, rfl, hc, hn⟩⟩
      | some r =>
        obtain ⟨x, p'⟩ := r
        have hpos := List.length_pos_iff.2 (next?_eq_some hn).2.1.spells.ne_nil
        obtain ⟨ls, q, j, u, h, hend⟩ :=
          exists_reads p' (i + x.lexeme.text.length) ((c :: t).drop x.lexeme.text.length)
        exact ⟨x.lexeme :: ls, q, j, u, .word hc hn h, hend⟩
termination_by t.length
decreasing_by
  · simp
  · rw [List.length_drop, List.length_cons]; omega

theorem Reads.length_eq (h : Reads p i t ls q j u) : i + t.length = j + u.length := by
  induction h with
  | done => rfl
  | layout _ _ ih => rw [List.length_cons]; omega
  | word _ hn _ ih =>
    have := (next?_eq_some hn).2.1.isPrefix.length_le
    rw [List.length_drop] at ih
    omega

private theorem Reads.le (h : Reads p i t ls q j u) : i ≤ j := by
  induction h with
  | done => exact le_refl _
  | layout _ _ ih => omega
  | word _ _ _ ih => omega

/-- Of two ways that the reader goes from one place, the longer begins with the shorter. -/
theorem Reads.comparable (h : Reads p i t ls q j u) (h' : Reads p i t ls' q' k v) (hj : j ≤ k) :
    ∃ ls'', ls' = ls ++ ls'' ∧ Reads q j u ls'' q' k v := by
  induction h generalizing ls' with
  | done => exact ⟨ls', rfl, h'⟩
  | layout hc h ih =>
    cases h' with
    | done => exact absurd h.le (by omega)
    | layout _ h' => exact ih h' hj
    | word hc' => rw [hc] at hc'; cases hc'
  | word hc hn h ih =>
    cases h' with
    | done =>
      have := List.length_pos_iff.2 (next?_eq_some hn).2.1.spells.ne_nil
      exact absurd h.le (by omega)
    | layout hc' => rw [hc] at hc'; cases hc'
    | word _ hn' h' =>
      obtain ⟨rfl, rfl⟩ := Prod.mk.inj (Option.some.inj (hn.symm.trans hn'))
      obtain ⟨ls'', rfl, h⟩ := ih h' hj
      exact ⟨ls'', rfl, h⟩

private theorem Reads.eq_of_nil (h : Reads p i t [] q j u) : p = q := by
  generalize hls : ([] : List Lexeme) = ls at h
  induction h with
  | done => rfl
  | layout _ _ ih => exact ih hls
  | word => cases hls

/-- What the reader has come to depends on the words only, not on the white space after them. -/
theorem Reads.phrase_unique (h : Reads p i t ls q j u) (h' : Reads p i t ls q' k v) : q = q' := by
  rcases Nat.le_total j k with hjk | hjk
  · obtain ⟨ls', hls, hrest⟩ := h.comparable h' hjk
    obtain rfl := List.self_eq_append_right.1 hls
    exact hrest.eq_of_nil
  · obtain ⟨ls', hls, hrest⟩ := h'.comparable h hjk
    obtain rfl := List.self_eq_append_right.1 hls
    exact hrest.eq_of_nil.symm

/-- The words that the reader takes are those of tokens that the phrase goes through. -/
theorem Reads.exists_scans (h : Reads p i t ls q j u) :
    ∃ ts, Scans i t ts j u ∧ p.run ts = some q ∧ ts.map Token.lexeme = ls := by
  induction h with
  | done => exact ⟨[], .done _ _, rfl, rfl⟩
  | layout hc _ ih =>
    obtain ⟨ts, hs, hr, rfl⟩ := ih
    exact ⟨ts, .layout hc hs, hr, rfl⟩
  | @word _ _ _ _ _ _ _ _ x _ _ hn _ ih =>
    obtain ⟨ts, hs, hr, rfl⟩ := ih
    obtain ⟨hx, hw, rfl, -⟩ := next?_eq_some hn
    exact ⟨x :: ts, .token hw hs, run_cons.2 ⟨_, hx, hr⟩, rfl⟩

/-! Conversely the reader follows every row of tokens that the phrase can go through. -/

theorem exists_radix {terminal : Terminal} (h : terminal.family = .decimal) :
    ∃ r, terminal = .ofRadix r := by
  cases terminal
  case binary => exact ⟨.binary, rfl⟩
  case octal => exact ⟨.octal, rfl⟩
  case decimal => exact ⟨.decimal, rfl⟩
  case hexadecimal => exact ⟨.hexadecimal, rfl⟩
  all_goals cases h

private theorem eq_slash_or {terminal : Terminal} (h : terminal.family = .multiplicative) :
    terminal = .slash ∨ terminal = .multiplicative := by
  cases terminal
  case slash => exact .inl rfl
  case multiplicative => exact .inr rfl
  all_goals cases h

private theorem slash_word {w w' : Text} (h : Terminal.slash.Takes t w)
    (h' : Terminal.multiplicative.Takes t w') : w = w' := by
  have hw : w = ['/'] := Terminal.spells_punctuation rfl h.spells
  obtain ⟨op, -, hop⟩ :=
    Terminal.spells_ofOperator (show (Terminal.ofOperator .divide).Spells w' from h'.spells)
  have hle := h'.longest
  subst hw hop
  obtain ⟨v, rfl⟩ := h.isPrefix
  have hp := h'.isPrefix
  cases op <;> first | rfl | simp [Operator.symbol] at hp

/-- A probe's event specification is waited for alone. -/
theorem awaits_probeSpec {terminal : Terminal} (h : p.Awaits .probeSpec)
    (h' : p.Awaits terminal) : terminal = .probeSpec := by
  have hm := h.mem_alternatives
  have hm' := h'.mem_alternatives
  cases p <;> simp [alternatives] at hm hm'
  exact hm'

/-- Two terminals that are waited for and take words at one place. -/
private theorem awaits_cases {a b : Terminal} {w w' : Text} (ha : p.Awaits a) (hb : p.Awaits b)
    (hw : a.Takes t w) (hw' : b.Takes t w') : a = b ∨
      (∃ r r', r ≠ r' ∧ a = .ofRadix r ∧ b = .ofRadix r') ∨
      (w = w' ∧ ∀ l, p.advance ⟨a, l⟩ = p.advance ⟨b, l⟩) := by
  by_cases hspec : a = .probeSpec ∨ b = .probeSpec
  · left
    rcases hspec with rfl | rfl
    · exact (awaits_probeSpec ha hb).symm
    · exact awaits_probeSpec hb ha
  obtain ⟨hsa, hsb⟩ := not_or.1 hspec
  obtain ⟨c, w, rfl⟩ := List.exists_cons_of_ne_nil hw.spells.ne_nil
  obtain ⟨c', w', rfl⟩ := List.exists_cons_of_ne_nil hw'.spells.ne_nil
  have hcc : c = c' := by
    obtain ⟨v, rfl⟩ := hw.isPrefix
    exact (List.cons_prefix_cons.1 hw'.isPrefix).1.symm
  subst hcc
  have hf : a.family = b.family :=
    (hw.spells.familyAt hsa).symm.trans (hw'.spells.familyAt hsb)
  rcases ha.eq_or hb hf with he | hd | hm
  · exact .inl he
  · obtain ⟨r, rfl⟩ := exists_radix hd
    obtain ⟨r', rfl⟩ := exists_radix (hf ▸ hd)
    by_cases hr : r = r'
    · exact .inl (congrArg _ hr)
    · exact .inr (.inl ⟨r, r', hr, rfl, rfl⟩)
  · rcases eq_slash_or hm with rfl | rfl <;> rcases eq_slash_or (hf ▸ hm) with rfl | rfl
    · exact .inl rfl
    · exact .inr (.inr ⟨slash_word hw hw', fun l => advance_slash ha hb⟩)
    · exact .inr (.inr ⟨(slash_word hw' hw).symm, fun l => (advance_slash hb ha).symm⟩)
    · exact .inl rfl

/-- A token that can go next is the one that the reader takes, but that a numeral must not stand
against a letter or a digit. -/
private theorem next?_of_advance {terminal : Terminal} {w : Text} (hw : terminal.Takes t w)
    (hq : p.advance ⟨terminal, i, w⟩ = some q)
    (hend : ∀ r, terminal = .ofRadix r → ∀ c ∈ (t.drop w.length).head?, c.isAlphanum = false) :
    ∃ x, p.next? i t = some (x, q) ∧ x.lexeme = ⟨i, w⟩ := by
  have ha : p.Awaits terminal := awaits_of_advance (t := ⟨terminal, i, w⟩) hw.spells hq
  obtain ⟨⟨b, l⟩, q', hn⟩ := exists_next (i := i) ha hw
  obtain ⟨hq', hw', hl, hlongest⟩ := next?_eq_some hn
  have hb : p.Awaits b := awaits_of_advance (t := ⟨b, l⟩) hw'.spells hq'
  have hle := hlongest _ _ ha hw
  have hwl : w = l.text ∧ p.advance ⟨terminal, i, w⟩ = p.advance ⟨b, i, w⟩ := by
    rcases awaits_cases ha hb hw hw' with rfl | ⟨r, r', hr, rfl, rfl⟩ | ⟨he, hadvance⟩
    · exact ⟨hw.unique hw', rfl⟩
    · exfalso
      rcases Terminal.numerals_differ hr hw hw' with ⟨rfl, c, z, hz, hc⟩ | ⟨hz, c, z, rfl, -⟩
      · obtain ⟨v, hv⟩ := hw'.isPrefix
        obtain rfl : _ = t := hv
        have := hend r rfl c (by simp [show l.text = '0' :: c :: z from hz])
        rw [hc] at this
        cases this
      · rw [show l.text = ['0'] from hz] at hle
        simp at hle
    · exact ⟨he, hadvance _⟩
  obtain ⟨rfl, hadvance⟩ := hwl
  obtain ⟨start, text⟩ := l
  obtain rfl : start = i := hl
  rw [hadvance] at hq
  obtain rfl := Option.some.inj (hq.symm.trans hq')
  exact ⟨_, hn, rfl⟩

/-- What the phrase is to read begins with no letter and no digit, or with a word that the phrase
waits for. -/
def Fits (p : Partial) (t : Text) : Prop :=
  ∀ c ∈ t.head?, c.isAlphanum = true → ∃ terminal w, p.Awaits terminal ∧ terminal.Takes t w

theorem Fits.of_scans {ts : List Token} (h : Scans i t ts j u) (hr : p.run ts = some q)
    (hf : q.Fits u) : p.Fits t := by
  cases h with
  | done =>
    obtain rfl := Option.some.inj hr
    exact hf
  | layout hc =>
    rintro c ⟨⟩ hc'
    rw [Text.isLayout_of_isAlphanum hc'] at hc
    cases hc
  | @token _ _ terminal _ w _ _ hw =>
    obtain ⟨p', hp', -⟩ := run_cons.1 hr
    intro _ _ _
    exact ⟨terminal, w, awaits_of_advance (t := ⟨terminal, i, w⟩) hw.spells hp', hw⟩

private theorem Fits.after_numeral {r : Radix} {l : Lexeme} (h : q.Fits t)
    (hp : p.advance ⟨.ofRadix r, l⟩ = some q) : ∀ c ∈ t.head?, c.isAlphanum = false := by
  intro c hc
  by_contra hn
  obtain ⟨terminal, w, ha, hw⟩ := h c hc (by simpa using hn)
  obtain ⟨a, w, rfl⟩ := List.exists_cons_of_ne_nil hw.spells.ne_nil
  obtain ⟨v, rfl⟩ := hw.isPrefix
  obtain rfl : a = c := Option.some.inj hc
  exact hn (not_isAlphanum_after_numeral hp ha hw.spells)

/-- The reader follows the tokens, whatever the text after them, so long as this text fits. -/
theorem reads_of_scans {ts : List Token} (h : Scans i t ts j u) (hr : p.run ts = some q)
    (hf : q.Fits u) : Reads p i t (ts.map Token.lexeme) q j u := by
  induction h generalizing p with
  | done =>
    obtain rfl := Option.some.inj hr
    exact .done p _ _
  | layout hc _ ih => exact .layout hc (ih hr hf)
  | @token i _ terminal t w _ ts hw h ih =>
    obtain ⟨p', hp', hr'⟩ := run_cons.1 hr
    obtain ⟨x, hn, hx⟩ := next?_of_advance hw hp' fun r he => by
      subst he
      exact (Fits.of_scans h hr' hf).after_numeral hp'
    have hread := ih hr' hf
    obtain ⟨v, rfl⟩ := hw.isPrefix
    obtain ⟨c, w, rfl⟩ := List.exists_cons_of_ne_nil hw.spells.ne_nil
    rw [show (c :: w).length = x.lexeme.text.length by rw [hx]] at hread
    have hword := Reads.word hw.spells.isLayout_head hn hread
    rwa [hx] at hword

end Partial
end ProbeScript.Phrase
