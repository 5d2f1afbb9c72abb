import ProbeScript.Proofs.Phrase.Letter

/-! Texts that fall into tokens. Nothing here knows the grammar: the tokens are given, each is the
longest word of its terminal where it stands, and only white space stands between them. -/
namespace ProbeScript.Phrase

/-- The word is one of the terminal's. -/
def Token.Spelled (t : Token) : Prop := t.terminal.Spells t.lexeme.text

/-- The tokens stand one after the other at the head of a text whose first character is at the
index. The text after them begins at the second index. -/
inductive Scans : Nat → Text → List Token → Nat → Text → Prop
  | done (i : Nat) (t : Text) : Scans i t [] i t
  | layout {i j : Nat} {c : Char} {t rest : Text} {ts : List Token} : Text.isLayout c = true →
      Scans (i + 1) t ts j rest → Scans i (c :: t) ts j rest
  | token {i j : Nat} {terminal : Terminal} {t w rest : Text} {ts : List Token} :
      terminal.Takes t w → Scans (i + w.length) (t.drop w.length) ts j rest →
      Scans i t (⟨terminal, i, w⟩ :: ts) j rest

/-- The tokens make up the whole text. -/
def Covers (t : Text) (ts : List Token) : Prop := Scans 0 t ts t.length []

namespace Scans
variable {i j k : Nat} {t u v : Text} {ts us : List Token}

theorem append (h : Scans i t ts j u) (h' : Scans j u us k v) : Scans i t (ts ++ us) k v := by
  induction h with
  | done => exact h'
  | layout hc _ ih => exact .layout hc (ih h')
  | token hw _ ih => exact .token hw (ih h')

/-- White space at the head of a text is passed over. -/
theorem after_layout {f : Text} (hf : ∀ c ∈ f, Text.isLayout c = true)
    (h : Scans (i + f.length) t ts j u) : Scans i (f ++ t) ts j u := by
  induction f generalizing i with
  | nil => exact h
  | cons c f ih =>
    obtain ⟨hc, hf⟩ := List.forall_mem_cons.1 hf
    refine .layout hc (ih hf ?_)
    rwa [Nat.add_assoc, Nat.add_comm 1]

theorem split (h : Scans i t (ts ++ us) k v) : ∃ j u, Scans i t ts j u ∧ Scans j u us k v := by
  generalize hs : ts ++ us = all at h
  induction h generalizing ts with
  | done i t =>
    obtain ⟨rfl, rfl⟩ := List.append_eq_nil_iff.1 hs
    exact ⟨i, t, .done i t, .done i t⟩
  | layout hc _ ih =>
    obtain ⟨j, u, h₁, h₂⟩ := ih hs
    exact ⟨j, u, .layout hc h₁, h₂⟩
  | token hw h ih =>
    cases ts with
    | nil =>
      obtain rfl : us = _ := hs
      exact ⟨_, _, .done _ _, .token hw h⟩
    | cons token ts =>
      obtain ⟨rfl, hs'⟩ := List.cons.inj hs
      obtain ⟨j, u, h₁, h₂⟩ := ih hs'
      exact ⟨j, u, .token hw h₁, h₂⟩

/-- Where the first token stands, it is the longest word of its terminal. -/
theorem exists_takes {x : Token} (h : Scans i t (x :: ts) j v) :
    ∃ u, Scans i t [] x.lexeme.start u ∧ x.terminal.Takes u x.lexeme.text ∧
      Scans x.lexeme.stop (u.drop x.lexeme.text.length) ts j v := by
  generalize hs : x :: ts = all at h
  induction h with
  | done => cases hs
  | layout hc _ ih =>
    obtain ⟨u, hu, hrest⟩ := ih hs
    exact ⟨u, .layout hc hu, hrest⟩
  | token hw h =>
    obtain ⟨rfl, rfl⟩ := List.cons.inj hs
    exact ⟨_, .done _ _, hw, h⟩

theorem split_at {x : Token} (h : Scans i t (ts ++ x :: us) k v) :
    ∃ u, Scans i t ts x.lexeme.start u ∧ x.terminal.Takes u x.lexeme.text ∧
      Scans x.lexeme.stop (u.drop x.lexeme.text.length) us k v := by
  obtain ⟨j, w, hts, hus⟩ := h.split
  obtain ⟨u, hlayout, hrest⟩ := hus.exists_takes
  have hall := hts.append hlayout
  rw [List.append_nil] at hall
  exact ⟨u, hall, hrest⟩

/-- The first token may be of any terminal that takes the same word. -/
theorem retag {a b : Terminal} {l : Lexeme} (h : Scans i t (⟨a, l⟩ :: ts) j u)
    (hab : ∀ v : Text, a.Takes v l.text → b.Takes v l.text) : Scans i t (⟨b, l⟩ :: ts) j u := by
  generalize hs : ⟨a, l⟩ :: ts = all at h
  induction h with
  | done => cases hs
  | layout hc _ ih => exact .layout hc (ih hs)
  | token hw h =>
    obtain ⟨hx, rfl⟩ := List.cons.inj hs
    obtain ⟨rfl, rfl⟩ := Token.mk.inj hx
    exact .token (hab _ hw) h

/-- The text read and where it ends. What follows may change, so long as its first character stays
or ends every word. -/
theorem exists_read (h : Scans i t ts j u) : ∃ s, t = s ++ u ∧ j = i + s.length ∧
    ∀ u' : Text, (u'.head? = u.head? ∨ ∀ c ∈ u'.head?, c ∈ Terminal.separators) →
      Scans i (s ++ u') ts j u' := by
  induction h with
  | done i t => exact ⟨[], rfl, rfl, fun u' _ => .done i u'⟩
  | @layout _ _ c _ _ _ hc _ ih =>
    obtain ⟨s, rfl, rfl, hs⟩ := ih
    exact ⟨c :: s, rfl, by simp; omega, fun u' hu => .layout hc (hs u' hu)⟩
  | @token i _ terminal t w rest ts hw _ ih =>
    obtain ⟨s, hd, rfl, hs⟩ := ih
    obtain ⟨v, rfl⟩ := hw.isPrefix
    rw [List.drop_left] at hd
    subst hd
    refine ⟨w ++ s, by rw [List.append_assoc], by simp; omega, fun u' hu => ?_⟩
    obtain ⟨hsp, hstop⟩ := Terminal.takes_append_iff.1 hw
    have hw' : terminal.Takes (w ++ (s ++ u')) w := by
      refine Terminal.takes_append_iff.2 ⟨hsp, fun c hc => ?_⟩
      cases s with
      | nil =>
        rcases hu with hu | hu
        · exact hstop c (by rw [List.nil_append] at hc ⊢; rwa [← hu])
        · exact Terminal.goesOn_of_mem_separators (hu c hc)
      | cons a s => exact hstop c hc
    rw [List.append_assoc]
    exact .token hw' (by rw [List.drop_left]; exact hs u' hu)

theorem length_eq (h : Scans i t ts j u) : i + t.length = j + u.length := by
  obtain ⟨s, rfl, rfl, -⟩ := h.exists_read
  simp
  omega

theorem spelled (h : Scans i t ts j u) : ∀ x ∈ ts, x.Spelled := by
  induction h with
  | done => simp
  | layout _ _ ih => exact ih
  | token hw _ ih => exact List.forall_mem_cons.2 ⟨hw.spells, ih⟩

theorem start_bounds (h : Scans i t ts j u) :
    ∀ x ∈ ts, i ≤ x.lexeme.start ∧ x.lexeme.stop ≤ j := by
  induction h with
  | done => simp
  | layout _ _ ih =>
    intro x hx
    have := ih x hx
    omega
  | @token i j _ _ w _ _ hw hr ih =>
    have hle : i + w.length ≤ j := by
      obtain ⟨s, -, rfl, -⟩ := hr.exists_read
      omega
    refine List.forall_mem_cons.2 ⟨⟨le_refl i, hle⟩, fun x hx => ?_⟩
    have := ih x hx
    omega

/-- No two tokens stand in one place. -/
theorem token_unique {x y : Token} (h : Scans i t ts j u) (hx : x ∈ ts) (hy : y ∈ ts)
    (he : x.lexeme = y.lexeme) : x = y := by
  induction h with
  | done => cases hx
  | layout _ _ ih => exact ih hx hy
  | @token i _ terminal _ w _ ts hw hr ih =>
    have hpos := List.length_pos_iff.2 hw.spells.ne_nil
    have hafter : ∀ z ∈ ts, z.lexeme.start ≠ i := by
      intro z hz
      have := (hr.start_bounds z hz).1
      omega
    rcases List.mem_cons.1 hx with rfl | hx <;> rcases List.mem_cons.1 hy with rfl | hy
    · rfl
    · exact absurd (congrArg Lexeme.start he).symm (hafter y hy)
    · exact absurd (congrArg Lexeme.start he) (hafter x hx)
    · exact ih hx hy

end Scans

/-- A word of its own is the only token of a text. -/
theorem Terminal.Spells.covers {terminal : Terminal} {w : Text} (h : terminal.Spells w) :
    Covers w [⟨terminal, 0, w⟩] := by
  have htakes : terminal.Takes (w ++ []) w :=
    Terminal.takes_append_iff.2 ⟨h, fun c hc => by cases hc⟩
  have hscans := Scans.token htakes (Scans.done (0 + w.length) _)
  rwa [List.append_nil, List.drop_length, Nat.zero_add] at hscans

/-- What follows a line feed behind the tokens of a text does not change them. -/
theorem Covers.line {t : Text} {ts : List Token} (h : Covers t ts) (u : Text) :
    Scans 0 (t ++ '\n' :: u) ts t.length ('\n' :: u) := by
  obtain ⟨s, hs, -, hread⟩ := h.exists_read
  rw [List.append_nil] at hs
  subst hs
  refine hread ('\n' :: u) (.inr fun c hc => ?_)
  obtain rfl := Option.some.inj hc
  decide

end ProbeScript.Phrase
