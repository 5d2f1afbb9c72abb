import ProbeScript.Phrase.Basic
import Mathlib.Data.List.TakeWhile
import Mathlib.Tactic.MkIffOfInductiveProp

/-! The words of the terminals. What a terminal spells is said apart from how a word is found; the
word found at the head of a text is then the longest that the terminal spells. -/
namespace ProbeScript

/-- A property of each character of a given text is checked one character after the other. -/
theorem Text.forall_mem_of_all {p : Char → Prop} [DecidablePred p] {t : Text}
    (h : (t.all fun c => decide (p c)) = true) : ∀ c ∈ t, p c := by
  simpa using h

/-- Rows that are equal are so up to the first element without the property, and from there on. -/
theorem append_inj_of_stop {α : Type} {p : α → Bool} {xs xs' ys ys' : List α}
    (h : xs ++ ys = xs' ++ ys') (hxs : ∀ x ∈ xs, p x = true) (hxs' : ∀ x ∈ xs', p x = true)
    (hys : ∀ y ∈ ys.head?, p y = false) (hys' : ∀ y ∈ ys'.head?, p y = false) :
    xs = xs' ∧ ys = ys' := by
  have htake {xs ys : List α} (hxs : ∀ x ∈ xs, p x = true) (hys : ∀ y ∈ ys.head?, p y = false) :
      (xs ++ ys).takeWhile p = xs := by
    rw [List.takeWhile_append_of_pos hxs]
    cases ys with
    | nil => simp
    | cons y ys => simp [hys y rfl]
  have hx : xs = xs' := by rw [← htake hxs hys, h, htake hxs' hys']
  subst hx
  exact ⟨rfl, List.append_cancel_left h⟩

private theorem takeWhile_spec (p : Char → Bool) (t : Text) :
    ∃ v, t = t.takeWhile p ++ v ∧ (∀ c ∈ t.takeWhile p, p c = true) ∧
      ∀ c ∈ v.head?, p c = false := by
  refine ⟨t.dropWhile p, List.takeWhile_append_dropWhile.symm, fun c => List.mem_takeWhile_imp, ?_⟩
  intro c hc
  have := List.head?_dropWhile_not p t
  rwa [Option.mem_def.1 hc] at this

private theorem takeWhile_quote {inner rest : Text} (h : '"' ∉ inner) :
    (inner ++ '"' :: rest).takeWhile (· != '"') = inner := by
  have hin : ∀ c ∈ inner, (c != '"') = true := fun c hc => by
    simpa using fun he : c = '"' => h (he ▸ hc)
  rw [List.takeWhile_append_of_pos hin]
  simp

namespace Phrase.Terminal

/-- The character that a terminal of one fixed character stands for. -/
def punctuation? : Terminal → Option Char
  | comma => some ','
  | equal => some '='
  | lbrace => some '\x7b'
  | rbrace => some '\x7d'
  | lpar => some '('
  | rpar => some ')'
  | semicolon => some ';'
  | slash => some '/'
  | _ => none

/-- The words that belong to a terminal. -/
@[mk_iff] inductive Spells : Terminal → Text → Prop
  /-- A decimal numeral begins with a zero only if it is one. -/
  | numeral (r : Radix) {ds : Text} : ds ≠ [] → (∀ d ∈ ds, r.isDigit d = true) →
      (r = .decimal → ds.head? = some '0' → ds = ['0']) → Spells (ofRadix r) (r.marker ++ ds)
  | symbol (op : Operator) : Spells (ofOperator op) op.symbol
  | quoted {inner : Text} : '"' ∉ inner → Spells string ('"' :: inner ++ ['"'])
  | named {c : Char} {ds : Text} : isNameStart c = true → (∀ d ∈ ds, isNameChar d = true) →
      Spells name (c :: ds)
  | spec {w : Text} : w ≠ [] → (∀ c ∈ w, (isSpecChar c || c == ':') = true) → Spells probeSpec w
  | mark {terminal : Terminal} {m : Char} : terminal.punctuation? = some m → Spells terminal [m]

/-- The terminal takes the word from the head of the text: the longest of its words there. -/
structure Takes (terminal : Terminal) (t w : Text) : Prop where
  isPrefix : w <+: t
  spells : terminal.Spells w
  longest : ∀ u, u <+: t → terminal.Spells u → u.length ≤ w.length

/-- Whether one more character would make a word of the terminal longer. -/
def goesOn : Terminal → Text → Char → Bool
  | name, _, c => isNameChar c
  | probeSpec, _, c => isSpecChar c || c == ':'
  | binary, _, c => Radix.binary.isDigit c
  | octal, _, c => Radix.octal.isDigit c
  | decimal, w, c => Radix.decimal.isDigit c && w != ['0']
  | hexadecimal, _, c => Radix.hexadecimal.isDigit c
  | relational, w, c => (w == ['>'] || w == ['<']) && c == '='
  | _, _, _ => false

theorem word_ofRadix (r : Radix) (t : Text) : (ofRadix r).word t = r.word t := by cases r <;> rfl

private theorem word_ofOperator (op : Operator) (t : Text) :
    (ofOperator op).word t = operatorWord (ofOperator op) t := by cases op <;> rfl

private theorem word_punctuation {terminal : Terminal} {m : Char}
    (h : terminal.punctuation? = some m) (t : Text) : terminal.word t = Terminal.mark m t := by
  cases terminal <;> cases h <;> rfl

private theorem goesOn_ofRadix (r : Radix) (w : Text) (c : Char) :
    (ofRadix r).goesOn w c = (r.isDigit c && (r != .decimal || w != ['0'])) := by
  cases r <;> simp [ofRadix, goesOn]

theorem Spells.ne_nil {terminal : Terminal} {w : Text} (h : terminal.Spells w) : w ≠ [] := by
  cases h with
  | numeral r hne => exact fun he => hne (List.append_eq_nil_iff.1 he).2
  | symbol op => cases op <;> decide
  | spec hne => exact hne
  | quoted | named | mark => simp

/-! A word found is one that the terminal spells, and the next character does not belong to it. -/

private theorem radix_word_spec {r : Radix} {t : Text} (h : r.word t ≠ []) :
    (ofRadix r).Spells (r.word t) ∧
      ∃ v, t = r.word t ++ v ∧ ∀ c ∈ v.head?, (ofRadix r).goesOn (r.word t) c = false := by
  revert h
  unfold Radix.word
  split
  case h_1 rest =>
    intro _
    refine ⟨.numeral .decimal (by decide) (List.forall_mem_singleton.2 rfl) (by simp), rest, rfl,
      ?_⟩
    simp [ofRadix, goesOn]
  case h_2 hz =>
    split
    case isFalse => simp
    case isTrue hm =>
      obtain ⟨v, rfl⟩ := List.isPrefixOf_iff_prefix.1 hm
      rw [List.drop_left]
      obtain ⟨rest, hv, hall, hstop⟩ := takeWhile_spec r.isDigit v
      split
      case h_1 => simp
      case h_2 hne =>
        intro _
        have hlead : r = .decimal → (v.takeWhile r.isDigit).head? ≠ some '0' := by
          rintro rfl h0
          obtain ⟨tail, h0⟩ := List.head?_eq_some_iff.1 h0
          exact hz (tail ++ rest) rfl (by rw [hv, h0]; rfl)
        refine ⟨.numeral r hne hall fun hr h0 => absurd h0 (hlead hr), rest, ?_, ?_⟩
        · rw [List.append_assoc, ← hv]
        · intro c hc
          rw [goesOn_ofRadix, hstop c hc, Bool.false_and]

private theorem operator_word_spec {terminal : Terminal} {t : Text}
    (h : operatorWord terminal t ≠ []) :
    ∃ op v, terminal = ofOperator op ∧ operatorWord terminal t = op.symbol ∧
      t = op.symbol ++ v ∧ ∀ c ∈ v.head?, terminal.goesOn op.symbol c = false := by
  revert h
  unfold operatorWord
  split
  case h_2 => simp
  case h_1 op ho =>
    intro _
    have := List.find?_some ho
    simp only [Bool.and_eq_true, beq_iff_eq, List.isPrefixOf_iff_prefix] at this
    obtain ⟨rfl, v, rfl⟩ := this
    refine ⟨op, v, rfl, rfl, rfl, ?_⟩
    intro c hc
    obtain ⟨v, rfl⟩ := List.head?_eq_some_iff.1 hc
    -- the symbols that begin others come after these
    cases op
    case gt | lt =>
      cases he : '=' == c
      · have hne : c ≠ '=' := fun h => by simp [h] at he
        simp [ofOperator, goesOn, hne]
      · simp [Operator.all, List.find?, ofOperator, Operator.symbol, List.isPrefixOf, he] at ho
    all_goals simp [ofOperator, goesOn, Operator.symbol]

/-- A word found is one that the terminal spells, and the character after it does not belong
to it. -/
private theorem word_spec {terminal : Terminal} {t : Text} (h : terminal.word t ≠ []) :
    terminal.Spells (terminal.word t) ∧
      ∃ v, t = terminal.word t ++ v ∧
        ∀ c ∈ v.head?, terminal.goesOn (terminal.word t) c = false := by
  have hsymbol (ht : terminal.word t = operatorWord terminal t) :
      terminal.Spells (terminal.word t) ∧ ∃ v, t = terminal.word t ++ v ∧
        ∀ c ∈ v.head?, terminal.goesOn (terminal.word t) c = false := by
    rw [ht] at h ⊢
    obtain ⟨op, v, rfl, hw, ht, hv⟩ := operator_word_spec h
    rw [hw]
    exact ⟨.symbol op, v, ht, hv⟩
  have hmark (m : Char) (hm : terminal.punctuation? = some m) :
      terminal.Spells (terminal.word t) ∧ ∃ v, t = terminal.word t ++ v ∧
        ∀ c ∈ v.head?, terminal.goesOn (terminal.word t) c = false := by
    rw [word_punctuation hm, Terminal.mark] at h ⊢
    split at h
    case isFalse => exact absurd rfl h
    case isTrue hc =>
      obtain ⟨v, rfl⟩ := List.head?_eq_some_iff.1 (beq_iff_eq.1 hc)
      rw [if_pos hc]
      exact ⟨.mark hm, v, rfl, by cases terminal <;> cases hm <;> simp [goesOn]⟩
  cases terminal
  case binary => exact radix_word_spec (r := .binary) h
  case octal => exact radix_word_spec (r := .octal) h
  case decimal => exact radix_word_spec (r := .decimal) h
  case hexadecimal => exact radix_word_spec (r := .hexadecimal) h
  case logical | relational | additive | multiplicative => exact hsymbol rfl
  case comma | equal | lbrace | rbrace | lpar | rpar | semicolon | slash => exact hmark _ rfl
  case probeSpec =>
    obtain ⟨v, ht, hall, hstop⟩ := takeWhile_spec (fun c => isSpecChar c || c == ':') t
    exact ⟨.spec h hall, v, ht, hstop⟩
  case name =>
    cases t with
    | nil => exact absurd rfl h
    | cons c t =>
      cases hc : isNameStart c
      · simp [word, hc] at h
      · obtain ⟨v, ht, hall, hstop⟩ := takeWhile_spec isNameChar t
        rw [show name.word (c :: t) = c :: t.takeWhile isNameChar by simp [word, hc]]
        exact ⟨.named hc hall, v, by rw [List.cons_append, ← ht], hstop⟩
  case string =>
    cases t with
    | nil => exact absurd rfl h
    | cons c t =>
      by_cases hc : c = '"' ∧ '"' ∈ t
      · obtain ⟨rfl, hq⟩ := hc
        obtain ⟨inner, rest, rfl, hin⟩ := List.eq_append_cons_of_mem hq
        rw [show string.word ('"' :: (inner ++ '"' :: rest)) = '"' :: inner ++ ['"'] by
          simp [word, takeWhile_quote hin]]
        exact ⟨.quoted hin, rest, by simp, by simp [goesOn]⟩
      · refine absurd ?_ h
        by_cases hd : c = '"'
        · subst hd
          simp_all [word]
        · simp [word, hd]

/-! No word of a terminal is left out, and a longer one goes on as `goesOn` says. -/

theorem Spells.word_ne_nil {terminal : Terminal} {u : Text} (h : terminal.Spells u) (v : Text) :
    terminal.word (u ++ v) ≠ [] := by
  cases h with
  | @numeral r ds hne hall hzero =>
    obtain ⟨d, ds, rfl⟩ := List.exists_cons_of_ne_nil hne
    have hd := hall d (by simp)
    rw [word_ofRadix, List.append_assoc]
    cases r
    case decimal =>
      by_cases hz : d = '0'
      · simp [Radix.marker, Radix.word, hz]
      · simp [Radix.marker, Radix.word, hz, hd]
    all_goals simp [Radix.marker, Radix.word, hd]
  | symbol op =>
    have hfound : (Operator.all.find? fun o =>
        ofOperator o == ofOperator op && o.symbol.isPrefixOf (op.symbol ++ v)).isSome := by
      rw [List.find?_isSome]
      exact ⟨op, by cases op <;> decide, by simp [List.isPrefixOf_iff_prefix]⟩
    obtain ⟨o, ho⟩ := Option.isSome_iff_exists.1 hfound
    rw [word_ofOperator, operatorWord, ho]
    exact (Spells.symbol o).ne_nil
  | quoted hin => simp [word]
  | named hc => simp [word, hc]
  | @spec w hne hall =>
    obtain ⟨c, w, rfl⟩ := List.exists_cons_of_ne_nil hne
    have := hall c (by simp)
    simp [word, this]
  | mark hm => simp [word_punctuation hm, Terminal.mark]

theorem spells_ofRadix {r : Radix} {w : Text} (h : (ofRadix r).Spells w) :
    ∃ ds, w = r.marker ++ ds ∧ ds ≠ [] ∧ (∀ d ∈ ds, r.isDigit d = true) ∧
      (r = .decimal → ds.head? = some '0' → ds = ['0']) := by
  rcases (spells_iff _ _).1 h with
    ⟨r', ds, hne, hall, hz, hr, rfl⟩ | ⟨op, hr, rfl⟩ | ⟨_, _, hr, _⟩ |
    ⟨_, _, _, _, hr, _⟩ | ⟨_, _, hr⟩ | ⟨m, hm, rfl⟩
  · obtain rfl : r = r' := by cases r <;> cases r' <;> first | rfl | cases hr
    exact ⟨ds, rfl, hne, hall, hz⟩
  · cases r <;> cases op <;> cases hr
  all_goals cases r <;> first | cases hr | cases hm

theorem spells_ofOperator {op : Operator} {w : Text} (h : (ofOperator op).Spells w) :
    ∃ o, ofOperator o = ofOperator op ∧ w = o.symbol := by
  rcases (spells_iff _ _).1 h with ⟨r, ds, -, -, -, hr, -⟩ | ⟨o, ho, rfl⟩ | ⟨_, _, ho, _⟩ |
    ⟨_, _, _, _, ho, _⟩ | ⟨_, _, ho⟩ | ⟨m, hm, rfl⟩
  · cases r <;> cases op <;> cases hr
  · exact ⟨o, ho.symm, rfl⟩
  all_goals cases op <;> first | cases ho | cases hm

theorem spells_string {w : Text} (h : string.Spells w) :
    ∃ inner, '"' ∉ inner ∧ w = '"' :: inner ++ ['"'] := by
  rcases (spells_iff _ _).1 h with ⟨r, ds, -, -, -, hr, -⟩ | ⟨o, ho, rfl⟩ | ⟨inner, hin, -, rfl⟩ |
    ⟨_, _, _, _, ho, _⟩ | ⟨_, _, ho⟩ | ⟨m, hm, rfl⟩
  · cases r <;> cases hr
  · cases o <;> cases ho
  · exact ⟨inner, hin, rfl⟩
  all_goals first | cases ho | cases hm

theorem spells_probeSpec {w : Text} (h : probeSpec.Spells w) :
    w ≠ [] ∧ ∀ c ∈ w, (isSpecChar c || c == ':') = true := by
  rcases (spells_iff _ _).1 h with ⟨r, ds, -, -, -, hr, -⟩ | ⟨o, ho, rfl⟩ | ⟨_, _, ho, _⟩ |
    ⟨_, _, _, _, ho, _⟩ | ⟨hne, hall, -⟩ | ⟨m, hm, rfl⟩
  · cases r <;> cases hr
  · cases o <;> cases ho
  · cases ho
  · cases ho
  · exact ⟨hne, hall⟩
  · cases hm

theorem spells_punctuation {terminal : Terminal} {m : Char} {w : Text}
    (hm : terminal.punctuation? = some m) (h : terminal.Spells w) : w = [m] := by
  rcases (spells_iff _ _).1 h with ⟨r, ds, -, -, -, rfl, -⟩ | ⟨o, rfl, rfl⟩ | ⟨_, _, rfl, _⟩ |
    ⟨_, _, _, _, rfl, _⟩ | ⟨_, _, rfl⟩ | ⟨m', hm', rfl⟩
  · cases r <;> cases hm
  · cases o <;> cases hm
  all_goals first | cases hm | rw [Option.some.inj (hm.symm.trans hm')]

/-- The tokens that may join two operands have the symbol of an operator. -/
theorem Spells.exists_symbol {terminal : Terminal} {w : Text} (h : terminal.Spells w)
    (ht : terminal ∈ [logical, relational, additive, multiplicative, slash]) :
    ∃ op : Operator, w = op.symbol := by
  have hof (o : Operator) (ho : terminal = ofOperator o) : ∃ op : Operator, w = op.symbol := by
    subst ho
    obtain ⟨op, -, hw⟩ := spells_ofOperator h
    exact ⟨op, hw⟩
  simp only [List.mem_cons, List.not_mem_nil, or_false] at ht
  rcases ht with rfl | rfl | rfl | rfl | rfl
  · exact hof .and rfl
  · exact hof .eq rfl
  · exact hof .add rfl
  · exact hof .divide rfl
  · exact ⟨.divide, spells_punctuation rfl h⟩

private theorem Spells.goesOn {terminal : Terminal} {w v : Text} {c : Char} (hw : terminal.Spells w)
    (h : terminal.Spells (w ++ c :: v)) : terminal.goesOn w c = true := by
  generalize hu : w ++ c :: v = u at h
  cases h with
  | @numeral r ds hne hall hzero =>
    obtain ⟨ds', rfl, hne', -, -⟩ := spells_ofRadix hw
    rw [List.append_assoc] at hu
    obtain rfl := List.append_cancel_left hu
    rw [goesOn_ofRadix, hall c (by simp)]
    by_cases hr : r = .decimal
    · subst hr
      -- a decimal zero would be the whole numeral
      have : ds' ≠ ['0'] := by
        rintro rfl
        simpa using hzero rfl rfl
      simpa [Radix.marker] using this
    · simp [hr]
  | symbol op =>
    obtain ⟨o, ho, rfl⟩ := spells_ofOperator hw
    cases op <;> cases o <;> try cases ho
    all_goals simp [Operator.symbol] at hu
    all_goals simp [ofOperator, Terminal.goesOn, Operator.symbol, hu.1]
  | @quoted inner hin =>
    obtain ⟨inner', -, rfl⟩ := spells_string hw
    simp only [List.cons_append, List.append_assoc, List.cons.injEq, true_and] at hu
    -- the mark that ends the shorter literal would lie within the longer one
    have he : inner' ++ '"' :: (c :: v).dropLast = inner := by
      simpa [List.dropLast_append_of_ne_nil] using congrArg List.dropLast hu
    exact absurd (he ▸ by simp) hin
  | @named a ds ha hall =>
    obtain ⟨b, w, rfl⟩ := List.exists_cons_of_ne_nil hw.ne_nil
    obtain ⟨-, rfl⟩ := List.cons.inj hu
    exact hall c (by simp)
  | spec hne hall => exact hall c (by simp [← hu])
  | mark hm =>
    have := congrArg List.length hu
    have := List.length_pos_iff.2 hw.ne_nil
    simp at *
    omega

/-! The word found is the longest one, and where it ends depends on the next character alone. -/

/-- Of two words at the head of one text the shorter goes on with the next character. -/
private theorem prefix_cases {u w t : Text} (hu : u <+: t) (hw : w <+: t) :
    u.length ≤ w.length ∨ ∃ c z, u = w ++ c :: z := by
  rcases List.prefix_or_prefix_of_prefix hu hw with h | ⟨z, rfl⟩
  · exact .inl h.length_le
  · cases z with
    | nil => exact .inl (by simp)
    | cons c z => exact .inr ⟨c, z, rfl⟩

private theorem longest_of_stop {terminal : Terminal} {u v w : Text} (hu : terminal.Spells u)
    (hstop : ∀ c ∈ v.head?, terminal.goesOn u c = false) (hp : w <+: u ++ v)
    (hw : terminal.Spells w) : w.length ≤ u.length := by
  rcases prefix_cases hp (List.prefix_append u v) with h | ⟨c, z, rfl⟩
  · exact h
  · rw [List.prefix_append_right_inj] at hp
    obtain ⟨y, rfl⟩ := hp
    exact absurd (hu.goesOn hw) (by simpa using hstop c rfl)

theorem takes_word {terminal : Terminal} {t : Text} (h : terminal.word t ≠ []) :
    terminal.Takes t (terminal.word t) := by
  obtain ⟨hs, v, hv, hstop⟩ := word_spec h
  exact ⟨⟨v, hv.symm⟩, hs, fun u hp hu => longest_of_stop hs hstop (hv ▸ hp) hu⟩

theorem Takes.unique {terminal : Terminal} {t u w : Text} (hu : terminal.Takes t u)
    (hw : terminal.Takes t w) : u = w := by
  have hle := hw.longest u hu.isPrefix hu.spells
  have hge := hu.longest w hw.isPrefix hw.spells
  exact (List.prefix_of_prefix_length_le hu.isPrefix hw.isPrefix hle).eq_of_length (by omega)

theorem takes_iff {terminal : Terminal} {t w : Text} :
    terminal.Takes t w ↔ w ≠ [] ∧ terminal.word t = w := by
  constructor
  · intro h
    obtain ⟨v, rfl⟩ := h.isPrefix
    exact ⟨h.spells.ne_nil, (takes_word (h.spells.word_ne_nil v)).unique h⟩
  · rintro ⟨hne, rfl⟩
    exact takes_word hne

theorem takes_append_iff {terminal : Terminal} {u v : Text} :
    terminal.Takes (u ++ v) u ↔
      terminal.Spells u ∧ ∀ c ∈ v.head?, terminal.goesOn u c = false := by
  constructor
  · intro h
    obtain ⟨hne, he⟩ := takes_iff.1 h
    obtain ⟨hs, v', hv, hstop⟩ := word_spec (he.symm ▸ hne)
    rw [he] at hs hv hstop
    exact ⟨hs, List.append_cancel_left hv ▸ hstop⟩
  · rintro ⟨hs, hstop⟩
    exact ⟨List.prefix_append u v, hs, fun w hp hw => longest_of_stop hs hstop hp hw⟩

end Phrase.Terminal
end ProbeScript
