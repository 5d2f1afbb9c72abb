import ProbeScript.Proofs.Text.Digits
import ProbeScript.Text.Quoted

/-! What quoting keeps. A quoted text stands on one line, and it can be read back: each character is
written so that it is plain where it ends and which one it is. -/
namespace ProbeScript.Text

variable {mark c d l : Char} {s t u x y r r' : Text} {width n m : Nat}

/-- The digits of a code. -/
def hex (width n : Nat) : Text :=
  let ds := (Radix.hexadecimal.digits n).map Char.toLower
  List.replicate (width - ds.length) '0' ++ ds

private theorem code_eq (l : Char) (width n : Nat) :
    code l width n = '\\' :: l :: hex width n := rfl

private theorem isDigit_of_mem_hex : ∀ a ∈ hex width n, Radix.hexadecimal.isDigit a = true := by
  refine List.forall_mem_append.2 ⟨fun a ha => ?_, ?_⟩
  · rw [List.eq_of_mem_replicate ha]
    rfl
  · exact Radix.isDigit_of_mem_toLower (Radix.isDigit_of_mem_digits _ n)

private theorem length_hex (hwidth : 0 < width) (hn : n < 16 ^ width) :
    (hex width n).length = width := by
  have hle : (Radix.hexadecimal.digits n).length ≤ width := Radix.length_digits_le hwidth hn
  simp only [hex, List.length_append, List.length_replicate, List.length_map]
  omega

private theorem hex_inj (h : hex width n = hex width m) : n = m := by
  have hvalue (n : Nat) : Radix.hexadecimal.value (hex width n) = n := by
    rw [hex, Radix.value_zeros, Radix.value_toLower (Radix.isDigit_of_mem_digits _ n),
      Radix.value_digits]
  rw [← hvalue n, h, hvalue]

/-- The characters that have letters of their own. -/
def names : List (Char × Char) := [('\n', 'n'), ('\r', 'r'), ('\t', 't')]

/-- How many digits stand after the letter of a code. -/
def widths : List (Char × Nat) := [('x', 2), ('u', 4), ('U', 8)]

/-- The ways in which a character may be written after a backslash: the letter that tells which way
it is, and the digits after it. -/
inductive Escape (mark : Char) : Char → Char → Text → Prop
  | self {c : Char} : c = mark ∨ c = '\\' → Escape mark c c []
  | named {c l : Char} : (c, l) ∈ names → Escape mark c l []
  | coded {c l : Char} {width : Nat} : (l, width) ∈ widths → c.toNat < 16 ^ width →
    Escape mark c l (hex width c.toNat)

/-- A character is plain, or it is written after a backslash. -/
private theorem escaped_cases (mark c : Char) : (c ≠ '\\' ∧ c ≠ '\n' ∧ escaped mark c = [c]) ∨
    ∃ l r, Escape mark c l r ∧ escaped mark c = '\\' :: l :: r := by
  by_cases hself : c = mark ∨ c = '\\'
  · exact .inr ⟨c, [], .self hself, by simp [escaped, hself]⟩
  by_cases hnamed : ∃ l, (c, l) ∈ names
  · obtain ⟨l, hl⟩ := hnamed
    refine .inr ⟨l, [], .named hl, ?_⟩
    rw [escaped, if_neg (by simpa using hself)]
    simp only [names, List.mem_cons, Prod.mk.injEq, List.not_mem_nil, or_false] at hl
    rcases hl with ⟨rfl, rfl⟩ | ⟨rfl, rfl⟩ | ⟨rfl, rfl⟩ <;> rfl
  have hcontrol : c ≠ '\n' ∧ c ≠ '\r' ∧ c ≠ '\t' := by
    refine ⟨?_, ?_, ?_⟩ <;> rintro rfl <;> apply hnamed
    · exact ⟨'n', by decide⟩
    · exact ⟨'r', by decide⟩
    · exact ⟨'t', by decide⟩
  have hescaped : escaped mark c = if isPrintable c then [c]
      else if c.toNat < 0x100 then code 'x' 2 c.toNat
      else if c.toNat < 0x10000 then code 'u' 4 c.toNat else code 'U' 8 c.toNat := by
    rw [escaped, if_neg (by simpa using hself)]
    simp [hcontrol]
  rw [hescaped]
  split
  case isTrue => exact .inl ⟨fun hc => hself (.inr hc), hcontrol.1, rfl⟩
  right
  split
  case isTrue hlt => exact ⟨_, _, .coded (by decide) hlt, code_eq ..⟩
  split
  case isTrue hlt => exact ⟨_, _, .coded (by decide) hlt, code_eq ..⟩
  case isFalse => exact ⟨_, _, .coded (by decide) c.val.toNat_lt, code_eq ..⟩

/-- The letter tells how many digits there are, and with them which character is meant. -/
private theorem Escape.inj (hmark : mark ∈ [apostrophe, '"']) (h : Escape mark c l r)
    (h' : Escape mark d l r') : r.length = r'.length ∧ (r = r' → c = d) := by
  have hnames : ∀ p ∈ names, p.2 ∉ [apostrophe, '"', '\\'] ∧ ∀ q ∈ widths, p.2 ≠ q.1 := by decide
  have hwidths : ∀ p ∈ widths, p.1 ∉ [apostrophe, '"', '\\'] := by decide
  have hself {l : Char} (hl : l = mark ∨ l = '\\') : l ∈ [apostrophe, '"', '\\'] := by
    rcases hl with rfl | rfl
    · exact List.mem_append_left ['\\'] hmark
    · decide
  cases h with
  | self hc =>
    cases h' with
    | self => exact ⟨rfl, fun _ => rfl⟩
    | named hd => exact absurd (hself hc) (hnames _ hd).1
    | coded hd => exact absurd (hself hc) (hwidths _ hd)
  | named hc =>
    cases h' with
    | self hd => exact absurd (hself hd) (hnames _ hc).1
    | named hd =>
      have hone : ∀ p ∈ names, ∀ q ∈ names, p.2 = q.2 → p.1 = q.1 := by decide
      exact ⟨rfl, fun _ => hone _ hc _ hd rfl⟩
    | coded hd => exact absurd rfl ((hnames _ hc).2 _ hd)
  | coded hc hlt =>
    cases h' with
    | self hd => exact absurd (hself hd) (hwidths _ hc)
    | named hd => exact absurd rfl ((hnames _ hd).2 _ hc)
    | coded hd hlt' =>
      have hone : ∀ p ∈ widths, ∀ q ∈ widths, p.1 = q.1 → p.2 = q.2 := by decide
      have hpos : ∀ p ∈ widths, 0 < p.2 := by decide
      obtain rfl : _ = _ := hone _ hc _ hd rfl
      refine ⟨?_, fun hr => Char.toNat_inj.1 (hex_inj hr)⟩
      rw [length_hex (hpos _ hc) hlt, length_hex (hpos _ hd) hlt']

private theorem escaped_append_inj (hmark : mark ∈ [apostrophe, '"'])
    (h : escaped mark c ++ x = escaped mark d ++ y) : c = d ∧ x = y := by
  rcases escaped_cases mark c with ⟨hc, -, he⟩ | ⟨l, r, hc, he⟩ <;>
    rcases escaped_cases mark d with ⟨hd, -, he'⟩ | ⟨l', r', hd, he'⟩ <;> rw [he, he'] at h
  · simpa using h
  · exact absurd (List.cons.inj h).1 hc
  · exact absurd (List.cons.inj h).1.symm hd
  · obtain ⟨rfl, hrest⟩ := List.cons.inj (List.cons.inj h).2
    obtain ⟨hlen, hchar⟩ := hc.inj hmark hd
    obtain ⟨hr, hxy⟩ := List.append_inj hrest hlen
    exact ⟨hchar hr, hxy⟩

private theorem quoteMark_mem (t : Text) : quoteMark t ∈ [apostrophe, '"'] := by
  rw [quoteMark]
  split <;> simp

private theorem escaped_ne_nil (mark c : Char) : escaped mark c ≠ [] := by
  rcases escaped_cases mark c with ⟨-, -, he⟩ | ⟨l, r, -, he⟩ <;> simp [he]

private theorem flatMap_escaped_inj (hmark : mark ∈ [apostrophe, '"'])
    (h : t.flatMap (escaped mark) = u.flatMap (escaped mark)) : t = u := by
  induction t generalizing u with
  | nil =>
    cases u with
    | nil => rfl
    | cons d u =>
      rw [List.flatMap_nil, List.flatMap_cons] at h
      exact absurd (List.append_eq_nil_iff.1 h.symm).1 (escaped_ne_nil mark d)
  | cons c t ih =>
    cases u with
    | nil =>
      rw [List.flatMap_nil, List.flatMap_cons] at h
      exact absurd (List.append_eq_nil_iff.1 h).1 (escaped_ne_nil mark c)
    | cons d u =>
      rw [List.flatMap_cons, List.flatMap_cons] at h
      obtain ⟨rfl, hrest⟩ := escaped_append_inj hmark h
      rw [ih hrest]

/-- No two texts are quoted in the same way. -/
theorem quoted_inj (h : quoted t = quoted u) : t = u := by
  obtain ⟨hmark, hrest⟩ := List.cons.inj h
  rw [← hmark] at hrest
  exact flatMap_escaped_inj (quoteMark_mem t) (List.append_cancel_right hrest)

private theorem newline_not_mem_escaped (hmark : mark ∈ [apostrophe, '"']) (c : Char) :
    '\n' ∉ escaped mark c := by
  rcases escaped_cases mark c with ⟨-, hc, he⟩ | ⟨l, r, h, he⟩
  · rw [he, List.mem_singleton]
    exact hc.symm
  rw [he, List.mem_cons, List.mem_cons]
  have hletter : '\n' ≠ l ∧ '\n' ∉ r := by
    cases h with
    | self hc =>
      refine ⟨?_, List.not_mem_nil⟩
      rintro rfl
      rcases hc with rfl | hc
      · revert hmark
        decide
      · cases hc
    | named hc =>
      have hnames : ∀ p ∈ names, '\n' ≠ p.2 := by decide
      exact ⟨hnames _ hc, List.not_mem_nil⟩
    | coded hc =>
      have hwidths : ∀ p ∈ widths, '\n' ≠ p.1 := by decide
      refine ⟨hwidths _ hc, fun hmem => ?_⟩
      cases isLayout_of_isAlphanum (Radix.isAlphanum_of_isDigit (isDigit_of_mem_hex _ hmem))
  rintro (hc | hc | hc)
  · cases hc
  · exact hletter.1 hc
  · exact hletter.2 hc

/-- A quoted text stands on one line. -/
theorem newline_not_mem_quoted (t : Text) : '\n' ∉ quoted t := by
  have hmark : '\n' ≠ quoteMark t := by
    intro he
    have hmem := quoteMark_mem t
    rw [← he] at hmem
    revert hmem
    decide
  rw [quoted, List.mem_append, List.mem_cons, List.mem_flatMap, List.mem_singleton]
  rintro ((he | ⟨c, -, hc⟩) | he)
  · exact hmark he
  · exact newline_not_mem_escaped (quoteMark_mem t) c hc
  · exact hmark he

end ProbeScript.Text
