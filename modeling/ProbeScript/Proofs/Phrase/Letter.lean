import ProbeScript.Proofs.Phrase.Word
import ProbeScript.Text.Segment

/-! The characters that words are made of. The first character of a word tells its terminal, but
for the four kinds of numeral, the slash and the sign of equality. -/
namespace ProbeScript

theorem Text.isUpper_iff (c : Char) : c.isUpper = true ↔ 65 ≤ c.toNat ∧ c.toNat ≤ 90 := by
  change decide (c.val ≥ 65 ∧ c.val ≤ 90) = true ↔ _
  simp [UInt32.le_iff_toNat_le]

theorem Text.isLower_iff (c : Char) : c.isLower = true ↔ 97 ≤ c.toNat ∧ c.toNat ≤ 122 := by
  change (decide (c.val ≥ 97) && decide (c.val ≤ 122)) = true ↔ _
  simp [UInt32.le_iff_toNat_le]

theorem Text.isAlpha_iff (c : Char) : c.isAlpha = true ↔
    (65 ≤ c.toNat ∧ c.toNat ≤ 90) ∨ (97 ≤ c.toNat ∧ c.toNat ≤ 122) := by
  rw [← isUpper_iff, ← isLower_iff]
  exact Bool.or_eq_true_iff

theorem Text.isDigit_iff (c : Char) : c.isDigit = true ↔ 48 ≤ c.toNat ∧ c.toNat ≤ 57 := by
  simp [Char.isDigit, UInt32.le_iff_toNat_le]

theorem Text.isAlphanum_iff (c : Char) :
    c.isAlphanum = true ↔ c.isAlpha = true ∨ c.isDigit = true := by
  rw [Char.isAlphanum, Bool.or_eq_true]

theorem Text.isLayout_of_isAlphanum {c : Char} (h : c.isAlphanum = true) : isLayout c = false := by
  by_contra hl
  simp only [isLayout, Bool.not_eq_false, Bool.or_eq_true, beq_iff_eq] at hl
  obtain ((rfl | rfl) | rfl) | rfl := hl <;> contradiction

theorem Text.isSpace_of_isLayout {c : Char} (h : isLayout c = true) : isSpace c = true := by
  simp only [isLayout, Bool.or_eq_true, beq_iff_eq] at h
  rcases h with ((rfl | rfl) | rfl) | rfl <;> decide

/-- The letters and the digits, one by one. -/
def Text.lettersAndDigits : Text :=
  "abcdefghijklmnopqrstuvwxyzABCDEFGHIJKLMNOPQRSTUVWXYZ0123456789".toList

private theorem Text.isAlphanum_iff_mem {c : Char} : c.isAlphanum = true ↔ c ∈ lettersAndDigits := by
  constructor
  · intro h
    have hlow : ∀ n < 123, (Char.ofNat n).isAlphanum = true → Char.ofNat n ∈ lettersAndDigits := by
      decide +kernel
    have hc : c.toNat < 123 := by
      rw [isAlphanum_iff, isAlpha_iff, isDigit_iff] at h
      omega
    rw [← Char.ofNat_toNat c] at h ⊢
    exact hlow c.toNat hc h
  · have hall : ∀ a ∈ lettersAndDigits, a.isAlphanum = true := forall_mem_of_all (by decide)
    exact hall c

private theorem Text.isLayout_iff_mem {c : Char} : isLayout c = true ↔ c ∈ " \t\r\n".toList := by
  have hlist : " \t\r\n".toList = [' ', '\t', '\r', '\n'] := rfl
  simp [isLayout, hlist, or_assoc]

/-- The characters that may stand outside strings and comments, one by one. -/
def Segment.alphabet : Text :=
  Text.lettersAndDigits ++ " \t\r\n".toList ++ "_*+\\?![]:/\x7b\x7d(),;=<>&|%-".toList

theorem Segment.inAlphabet_iff {c : Char} : inAlphabet c = true ↔ c ∈ alphabet := by
  simp only [inAlphabet, alphabet, Bool.or_eq_true, List.contains_iff_mem, Text.isAlphanum_iff_mem,
    Text.isLayout_iff_mem, List.mem_append]

/-- No white space but what separates tokens is in the alphabet. -/
theorem Text.isSpace_of_inAlphabet {c : Char} (h : Segment.inAlphabet c = true)
    (hc : isLayout c = false) : isSpace c = false := by
  rw [Segment.inAlphabet, Bool.or_eq_true, Bool.or_eq_true, hc, List.contains_iff_mem] at h
  rcases h with (h | h) | h
  · rw [isAlphanum_iff, isAlpha_iff, isDigit_iff] at h
    simp only [isSpace, Bool.or_eq_false_iff, Bool.and_eq_false_iff, decide_eq_false_iff_not,
      beq_eq_false_iff_ne]
    omega
  · cases h
  · have hall : ∀ a ∈ "_*+\\?![]:/\x7b\x7d(),;=<>&|%-".toList, isSpace a = false :=
      forall_mem_of_all (by decide)
    exact hall c h

theorem Radix.isAlphanum_of_isDigit {r : Radix} {c : Char} (h : r.isDigit c = true) :
    c.isAlphanum = true := by
  have hle (a b : Char) : a ≤ b ↔ a.toNat ≤ b.toNat := Iff.rfl
  rw [Text.isAlphanum_iff, Text.isAlpha_iff, Text.isDigit_iff]
  cases r <;> simp [isDigit, Text.isDigit_iff, hle] at h
  case binary => obtain rfl | rfl := h <;> decide
  all_goals omega

namespace Phrase.Terminal

/-- Terminals whose words can begin with the same character. -/
def family : Terminal → Terminal
  | binary | octal | hexadecimal => decimal
  | slash => multiplicative
  | equal => relational
  | terminal => terminal

/-- The family that a character begins a word of. -/
def familyAt (c : Char) : Terminal :=
  if c.isDigit then decimal
  else if isNameStart c then name
  else match c with
    | '"' => string
    | '&' | '|' => logical
    | '=' | '!' | '<' | '>' => relational
    | '+' | '-' => additive
    | '*' | '/' | '%' => multiplicative
    | ',' => comma
    | '\x7b' => lbrace
    | '\x7d' => rbrace
    | '(' => lpar
    | ')' => rpar
    | ';' => semicolon
    | _ => probeSpec

theorem familyAt_of_isAlphanum {c : Char} (h : c.isAlphanum = true) :
    familyAt c = name ∨ familyAt c = decimal := by
  rw [Text.isAlphanum_iff] at h
  unfold familyAt
  cases hd : c.isDigit <;> simp_all [isNameStart]

theorem familyAt_of_isDigit {c : Char} (h : c.isDigit = true) : familyAt c = decimal := if_pos h

theorem familyAt_of_isNameChar {c : Char} (h : isNameChar c = true) :
    familyAt c = name ∨ familyAt c = decimal := by
  rw [isNameChar, Bool.or_eq_true, beq_iff_eq] at h
  rcases h with h | rfl
  · exact familyAt_of_isAlphanum h
  · exact .inl rfl

private theorem isDigit_of_isNameStart {c : Char} (h : isNameStart c = true) :
    c.isDigit = false := by
  simp only [isNameStart, Bool.or_eq_true, beq_iff_eq] at h
  rcases h with h | rfl
  · rw [Text.isAlpha_iff] at h
    rw [← Bool.not_eq_true, Text.isDigit_iff]
    omega
  · rfl

theorem Spells.familyAt {terminal : Terminal} {c : Char} {w : Text} (hp : terminal ≠ probeSpec)
    (h : terminal.Spells (c :: w)) : familyAt c = terminal.family := by
  generalize hu : c :: w = u at h
  cases h with
  | @numeral r ds hne hall hzero =>
    have hd : c.isDigit = true := by
      cases r
      case decimal =>
        obtain rfl : c :: w = ds := hu
        exact hall c List.mem_cons_self
      all_goals
        obtain ⟨rfl, -⟩ := List.cons.inj hu
        rfl
    cases r <;> simp [Terminal.familyAt, hd, ofRadix, family]
  | symbol op =>
    cases op <;> (obtain ⟨rfl, -⟩ := List.cons.inj hu) <;> rfl
  | quoted =>
    obtain ⟨rfl, -⟩ := List.cons.inj hu
    rfl
  | named hc =>
    obtain ⟨rfl, -⟩ := List.cons.inj hu
    simp [Terminal.familyAt, isDigit_of_isNameStart hc, hc, family]
  | spec => exact absurd rfl hp
  | mark hm =>
    obtain ⟨rfl, -⟩ := List.cons.inj hu
    cases terminal <;> cases hm <;> rfl

/-- The characters that may stand in a word other than a string literal. -/
def isSolid (c : Char) : Bool := Segment.inAlphabet c && !Text.isLayout c

private theorem isSolid_of_isAlphanum {c : Char} (h : c.isAlphanum = true) : isSolid c = true := by
  simp [isSolid, Segment.inAlphabet, h, Text.isLayout_of_isAlphanum h]

theorem isSolid_of_isNameChar {c : Char} (h : isNameChar c = true) : isSolid c = true := by
  simp only [isNameChar, Bool.or_eq_true, beq_iff_eq] at h
  rcases h with h | rfl
  · exact isSolid_of_isAlphanum h
  · rfl

private theorem isSolid_of_isSpecChar {c : Char} (h : (isSpecChar c || c == ':') = true) :
    isSolid c = true := by
  simp only [isSpecChar, Bool.or_eq_true, beq_iff_eq, List.contains_iff_mem] at h
  rcases h with (h | h) | rfl
  · exact isSolid_of_isAlphanum h
  · have hall : ∀ c ∈ "_*+\\?![]".toList, isSolid c = true := Text.forall_mem_of_all (by decide)
    exact hall c h
  · rfl

/-- A word that is no string literal and no event specification is a name or a numeral, the symbol
of an operator, or a single mark. -/
theorem Spells.shape {terminal : Terminal} {w : Text} (hs : terminal ≠ string)
    (hp : terminal ≠ probeSpec) (h : terminal.Spells w) : (∀ c ∈ w, isNameChar c = true) ∨
      (∃ op : Operator, w = op.symbol) ∨ ∃ m, terminal.punctuation? = some m ∧ w = [m] := by
  cases h with
  | @numeral r ds hne hall hzero =>
    left
    have hmarker : ∀ c ∈ r.marker, isNameChar c = true :=
      Text.forall_mem_of_all (by cases r <;> decide)
    refine List.forall_mem_append.2 ⟨hmarker, fun c hc => ?_⟩
    simp [isNameChar, Radix.isAlphanum_of_isDigit (hall c hc)]
  | symbol op => exact .inr (.inl ⟨op, rfl⟩)
  | quoted => exact absurd rfl hs
  | @named a ds ha hall =>
    refine .inl (List.forall_mem_cons.2 ⟨?_, hall⟩)
    rw [isNameStart, Bool.or_eq_true] at ha
    rw [isNameChar, Bool.or_eq_true, Text.isAlphanum_iff]
    exact ha.imp_left .inl
  | spec => exact absurd rfl hp
  | mark hm => exact .inr (.inr ⟨_, hm, rfl⟩)

/-- Outside string literals a word is of the alphabet and holds no white space. -/
theorem Spells.solid {terminal : Terminal} {w : Text} (hs : terminal ≠ string)
    (h : terminal.Spells w) : ∀ c ∈ w, isSolid c = true := by
  by_cases hp : terminal = probeSpec
  · subst hp
    exact fun c hc => isSolid_of_isSpecChar ((spells_probeSpec h).2 c hc)
  · rcases h.shape hs hp with hall | ⟨op, rfl⟩ | ⟨m, hm, rfl⟩
    · exact fun c hc => isSolid_of_isNameChar (hall c hc)
    · exact Text.forall_mem_of_all (by cases op <;> decide)
    · refine List.forall_mem_singleton.2 ?_
      cases terminal <;> cases hm <;> rfl

/-- In a word other than a string literal a slash comes first if at all. -/
theorem Spells.ne_slash {terminal : Terminal} {w : Text} (hs : terminal ≠ string)
    (h : terminal.Spells w) : ∀ c ∈ w.tail, c ≠ '/' := by
  by_cases hp : terminal = probeSpec
  · subst hp
    rintro c hc rfl
    cases (spells_probeSpec h).2 '/' (List.mem_of_mem_tail hc)
  · rcases h.shape hs hp with hall | ⟨op, rfl⟩ | ⟨m, -, rfl⟩
    · rintro c hc rfl
      cases hall '/' (List.mem_of_mem_tail hc)
    · exact Text.forall_mem_of_all (by cases op <;> decide)
    · simp

/-- Only event specifications hold colons, and string literals. -/
theorem Spells.colon_not_mem {terminal : Terminal} {w : Text} (hs : terminal ≠ string)
    (hp : terminal ≠ probeSpec) (h : terminal.Spells w) : ':' ∉ w := by
  rcases h.shape hs hp with hall | ⟨op, rfl⟩ | ⟨m, hm, rfl⟩
  · intro hc
    cases hall ':' hc
  · cases op <;> decide
  · cases terminal <;> cases hm <;> decide

theorem Spells.isLayout_head {terminal : Terminal} {c : Char} {w : Text}
    (h : terminal.Spells (c :: w)) : Text.isLayout c = false := by
  by_cases hs : terminal = string
  · subst hs
    obtain ⟨inner, -, he⟩ := spells_string h
    obtain ⟨rfl, -⟩ := List.cons.inj he
    rfl
  · have hc := h.solid hs c List.mem_cons_self
    rw [isSolid, Bool.and_eq_true, Bool.not_eq_true'] at hc
    exact hc.2

/-- No word ends in white space of any kind. -/
theorem Spells.isSpace_last {terminal : Terminal} {c : Char} {w : Text}
    (h : terminal.Spells (w ++ [c])) : Text.isSpace c = false := by
  by_cases hs : terminal = string
  · subst hs
    obtain ⟨inner, -, he⟩ := spells_string h
    obtain ⟨-, hc⟩ := List.append_inj' he rfl
    obtain rfl := List.singleton_inj.1 hc
    decide
  · have hc := h.solid hs c (List.mem_append_right w List.mem_cons_self)
    rw [isSolid, Bool.and_eq_true, Bool.not_eq_true'] at hc
    exact Text.isSpace_of_inAlphabet hc.1 hc.2

/-- Characters that end any word but a string literal. -/
def separators : Text := " \t\r\n(),;".toList

theorem mem_separators_of_isLayout {c : Char} (h : Text.isLayout c = true) :
    c ∈ separators := by
  simp only [Text.isLayout, Bool.or_eq_true, beq_iff_eq] at h
  rcases h with ((rfl | rfl) | rfl) | rfl <;> decide

theorem goesOn_of_mem_separators {terminal : Terminal} {w : Text} {c : Char}
    (h : c ∈ separators) : terminal.goesOn w c = false := by
  have hdigit (r : Radix) : ∀ c ∈ separators, r.isDigit c = false :=
    Text.forall_mem_of_all (by cases r <;> decide)
  have hrest : ∀ c ∈ separators,
      isNameChar c = false ∧ (isSpecChar c || c == ':') = false ∧ (c == '=') = false :=
    Text.forall_mem_of_all (by decide)
  cases terminal
  case binary => exact hdigit .binary c h
  case octal => exact hdigit .octal c h
  case hexadecimal => exact hdigit .hexadecimal c h
  case decimal => simp [goesOn, hdigit .decimal c h]
  case name => exact (hrest c h).1
  case probeSpec => exact (hrest c h).2.1
  case relational => simp [goesOn, (hrest c h).2.2]
  all_goals rfl

/-- The radix whose literals have the character after their zero. -/
private def radixAt (c : Char) : Radix :=
  if c = 'x' then .hexadecimal else if c = 'b' then .binary else .octal

private theorem marked_numeral {r : Radix} {w : Text} (hr : r ≠ .decimal)
    (h : (ofRadix r).Spells w) :
    ∃ c z, w = '0' :: c :: z ∧ c.isAlphanum = true ∧ radixAt c = r := by
  obtain ⟨ds, rfl, hne, hall, -⟩ := spells_ofRadix h
  cases r
  case decimal => exact absurd rfl hr
  case binary => exact ⟨'b', ds, rfl, rfl, rfl⟩
  case hexadecimal => exact ⟨'x', ds, rfl, rfl, rfl⟩
  case octal =>
    obtain ⟨d, ds, rfl⟩ := List.exists_cons_of_ne_nil hne
    have hd := hall d List.mem_cons_self
    refine ⟨d, ds, rfl, Radix.isAlphanum_of_isDigit hd, ?_⟩
    have hx : d ≠ 'x' := by rintro rfl; contradiction
    have hb : d ≠ 'b' := by rintro rfl; contradiction
    simp [radixAt, hx, hb]

private theorem decimal_zero {z : Text} (h : (ofRadix .decimal).Spells ('0' :: z)) : z = [] := by
  obtain ⟨ds, hds, -, -, hzero⟩ := spells_ofRadix h
  obtain rfl : '0' :: z = ds := hds
  exact (List.cons.inj (hzero rfl rfl)).2

/-- Where two kinds of numeral begin with one another, one of them is a lone zero. -/
theorem numerals_differ {r r' : Radix} {t w w' : Text} (hne : r ≠ r')
    (h : (ofRadix r).Takes t w) (h' : (ofRadix r').Takes t w') :
    (w = ['0'] ∧ ∃ c z, w' = '0' :: c :: z ∧ c.isAlphanum = true) ∨
      (w' = ['0'] ∧ ∃ c z, w = '0' :: c :: z ∧ c.isAlphanum = true) := by
  have hzero {w w' : Text} {c : Char} {z : Text} (h : (ofRadix .decimal).Takes t w)
      (hw' : w' = '0' :: c :: z) (hp : w' <+: t) : w = ['0'] := by
    obtain ⟨v, rfl⟩ := hp
    obtain ⟨a, w, rfl⟩ := List.exists_cons_of_ne_nil h.spells.ne_nil
    have := h.isPrefix
    rw [hw', List.cons_append, List.cons_prefix_cons] at this
    obtain rfl := this.1
    rw [decimal_zero h.spells]
  by_cases hr : r = .decimal
  · subst hr
    obtain ⟨c, z, hw', hc, -⟩ := marked_numeral (Ne.symm hne) h'.spells
    exact .inl ⟨hzero h hw' h'.isPrefix, c, z, hw', hc⟩
  · obtain ⟨c, z, hw, hc, hrc⟩ := marked_numeral hr h.spells
    by_cases hr' : r' = .decimal
    · subst hr'
      exact .inr ⟨hzero h' hw h.isPrefix, c, z, hw, hc⟩
    · obtain ⟨c', z', hw', -, hrc'⟩ := marked_numeral hr' h'.spells
      obtain ⟨v, hv⟩ := h.isPrefix
      obtain ⟨v', hv'⟩ := h'.isPrefix
      have hcc : c = c' := by
        have := hv.trans hv'.symm
        rw [hw, hw'] at this
        simp at this
        exact this.1
      exact absurd (hrc.symm.trans (hcc ▸ hrc')) hne

end Phrase.Terminal
end ProbeScript
