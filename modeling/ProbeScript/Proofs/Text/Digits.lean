import Mathlib.Algebra.Group.Nat.Defs
import Mathlib.Data.List.Induction
import Mathlib.Data.Nat.Digits.Defs
import ProbeScript.Proofs.Phrase.Letter

/-! Numbers and their digits. The digits of a number stand for it, and a row of digits stands for a
number as small as its length allows. -/
namespace ProbeScript.Radix

variable {r : Radix} {n k : Nat} {ds : Text}

private theorem base_le (r : Radix) : r.base ≤ 16 := by cases r <;> decide

private theorem worth_digit {d : Nat} (h : d < 16) : worth (digit d) = d := by
  have hall : ∀ d, d < 16 → worth (digit d) = d := by decide
  exact hall d h

private theorem isDigit_digit {d : Nat} (h : d < r.base) : r.isDigit (digit d) = true := by
  have hall : ∀ d, d < r.base → r.isDigit (digit d) = true := by cases r <;> decide
  exact hall d h

private theorem value_append (ds : Text) (c : Char) :
    r.value (ds ++ [c]) = r.base * r.value ds + worth c := by
  rw [value, List.foldl_append]
  rfl

/-- The first digit is the most significant. -/
theorem value_eq_ofDigits (r : Radix) (ds : Text) :
    r.value ds = Nat.ofDigits r.base (ds.reverse.map worth) := by
  induction ds using List.reverseRecOn with
  | nil => rfl
  | append_singleton ds c ih =>
    rw [value_append, ih, List.reverse_append, List.reverse_singleton, List.singleton_append,
      List.map_cons, Nat.ofDigits_cons, Nat.add_comm]

theorem value_digits (r : Radix) (n : Nat) : r.value (r.digits n) = n := by
  induction n using Nat.strong_induction_on with
  | h n ih =>
    have hbase := r.two_le_base
    have hle := r.base_le
    rw [digits]
    split
    case isTrue hn =>
      rw [← List.nil_append [digit n], value_append, worth_digit (by omega)]
      exact Nat.zero_add n
    case isFalse hn =>
      have hlt := Nat.mod_lt n (show 0 < r.base by omega)
      rw [value_append, ih _ (Nat.div_lt_self (by omega) (by omega)), worth_digit (by omega)]
      exact Nat.div_add_mod n r.base

theorem digits_ne_nil (r : Radix) (n : Nat) : r.digits n ≠ [] := by
  rw [digits]
  split <;> simp

theorem isDigit_of_mem_digits (r : Radix) (n : Nat) : ∀ d ∈ r.digits n, r.isDigit d = true := by
  induction n using Nat.strong_induction_on with
  | h n ih =>
    have hbase := r.two_le_base
    rw [digits]
    split
    case isTrue hn => exact List.forall_mem_singleton.2 (isDigit_digit hn)
    case isFalse hn =>
      have hlt := Nat.mod_lt n (show 0 < r.base by omega)
      refine List.forall_mem_append.2 ⟨ih _ (Nat.div_lt_self (by omega) (by omega)), ?_⟩
      exact List.forall_mem_singleton.2 (isDigit_digit hlt)

/-- No digit but the only one is a leading zero. -/
theorem digits_of_zero (h : (r.digits n).head? = some '0') : r.digits n = ['0'] := by
  induction n using Nat.strong_induction_on with
  | h n ih =>
    have hbase := r.two_le_base
    rw [digits] at h ⊢
    split at h
    case isTrue hn =>
      rw [if_pos hn]
      exact congrArg (· :: []) (Option.some.inj h)
    case isFalse hn =>
      exfalso
      obtain ⟨d, ds, hds⟩ := List.exists_cons_of_ne_nil (r.digits_ne_nil (n / r.base))
      have hhead : (r.digits (n / r.base)).head? = some '0' := by
        rw [hds] at h ⊢
        exact h
      have hzero := r.value_digits (n / r.base)
      rw [ih _ (Nat.div_lt_self (by omega) (by omega)) hhead] at hzero
      have hdiv := Nat.div_pos (show r.base ≤ n by omega) (by omega)
      have hvalue : r.value ['0'] = 0 := by cases r <;> rfl
      omega

theorem length_digits_le (hk : 0 < k) (h : n < r.base ^ k) : (r.digits n).length ≤ k := by
  induction k generalizing n with
  | zero => omega
  | succ k ih =>
    rw [digits]
    split
    case isTrue => simp
    case isFalse hn =>
      rw [List.length_append, List.length_singleton]
      have hbase := r.two_le_base
      have hdiv : n / r.base < r.base ^ k := by
        rw [Nat.div_lt_iff_lt_mul (by omega)]
        rwa [← Nat.pow_succ]
      have hk : 0 < k := by
        rcases Nat.eq_zero_or_pos k with rfl | hk
        · simp at h
          omega
        · exact hk
      have := ih hk hdiv
      omega

private theorem worth_lt {c : Char} (h : r.isDigit c = true) : worth c < r.base := by
  have hle (a b : Char) : a ≤ b ↔ a.toNat ≤ b.toNat := Iff.rfl
  have hupper := Text.isUpper_iff c
  have hdigit := Text.isDigit_iff c
  cases r
  case binary =>
    rw [isDigit, Bool.or_eq_true, beq_iff_eq, beq_iff_eq] at h
    rcases h with rfl | rfl <;> decide
  all_goals
    simp [isDigit, hdigit, hle] at h
    simp only [worth, base, hdigit, hupper]
  case hexadecimal =>
    split
    · omega
    · split <;> omega
  all_goals split <;> omega

theorem value_lt (h : ∀ d ∈ ds, r.isDigit d = true) : r.value ds < r.base ^ ds.length := by
  induction ds using List.reverseRecOn with
  | nil => exact Nat.one_pos
  | append_singleton ds c ih =>
    obtain ⟨hds, hc⟩ := List.forall_mem_append.1 h
    have hlt := worth_lt (hc c List.mem_cons_self)
    have hle := ih hds
    rw [value_append, List.length_append, List.length_singleton, Nat.pow_succ]
    calc r.base * r.value ds + worth c < r.base * r.value ds + r.base := Nat.add_lt_add_left hlt _
      _ = r.base * (r.value ds + 1) := rfl
      _ ≤ r.base * r.base ^ ds.length := Nat.mul_le_mul_left _ hle
      _ = r.base ^ ds.length * r.base := Nat.mul_comm _ _

theorem read_eq_ok_iff :
    r.read ds = .ok n ↔ r.value ds = n ∧ (r = .decimal → ds.length ≤ digitLimit) := by
  rw [read]
  split
  case isTrue h =>
    constructor
    · intro hread
      cases hread
    · rintro ⟨-, hle⟩
      exact absurd (hle h.1) (Nat.not_le.2 h.2)
  case isFalse h =>
    rw [Except.ok.injEq, and_iff_left]
    intro hr
    by_contra hlt
    exact h ⟨hr, by omega⟩

/-! Digits that are spelled in different ways. -/

/-- The digits without leading zeros, the letters among them in capitals. -/
def significant (ds : Text) : Text := (ds.dropWhile (· == '0')).map Char.toUpper

private theorem lt_of_isDigit {c : Char} (h : r.isDigit c = true) : c.toNat < 128 := by
  have hc := isAlphanum_of_isDigit h
  rw [Text.isAlphanum_iff, Text.isAlpha_iff, Text.isDigit_iff] at hc
  omega

private theorem digit_worth {c : Char} (h : r.isDigit c = true) : digit (worth c) = c.toUpper := by
  have hall : ∀ k < 128, r.isDigit (Char.ofNat k) = true →
      digit (worth (Char.ofNat k)) = (Char.ofNat k).toUpper := by
    cases r <;> decide +kernel
  have hc := hall c.toNat (lt_of_isDigit h)
  rw [Char.ofNat_toNat] at hc
  exact hc h

private theorem worth_eq_zero {c : Char} (h : r.isDigit c = true) (hw : worth c = 0) : c = '0' := by
  have hall : ∀ k < 128, r.isDigit (Char.ofNat k) = true → worth (Char.ofNat k) = 0 →
      Char.ofNat k = '0' := by
    cases r <;> decide +kernel
  have hc := hall c.toNat (lt_of_isDigit h)
  rw [Char.ofNat_toNat] at hc
  exact hc h hw

private theorem digits_mul_add {d : Nat} (hn : 0 < n) (hd : d < r.base) :
    r.digits (r.base * n + d) = r.digits n ++ [digit d] := by
  have hbase := r.two_le_base
  have hle := Nat.le_mul_of_pos_right r.base hn
  rw [digits, if_neg (by omega), Nat.mul_add_div (by omega), Nat.div_eq_of_lt hd, Nat.add_zero,
    Nat.mul_add_mod, Nat.mod_eq_of_lt hd]

/-- They are the digits of the number, of which zero has none. -/
theorem significant_eq (h : ∀ d ∈ ds, r.isDigit d = true) :
    significant ds = if r.value ds = 0 then [] else r.digits (r.value ds) := by
  induction ds using List.reverseRecOn with
  | nil => rfl
  | append_singleton ds c ih =>
    obtain ⟨hds, hc⟩ := List.forall_mem_append.1 h
    have hc := hc c List.mem_cons_self
    have hlt := worth_lt hc
    have hih := ih hds
    rw [value_append, significant, List.dropWhile_append]
    by_cases hv : r.value ds = 0
    · rw [if_pos hv, significant, List.map_eq_nil_iff] at hih
      rw [hih, hv, Nat.mul_zero, Nat.zero_add]
      by_cases hzero : c = '0'
      · subst hzero
        rfl
      · have hw : worth c ≠ 0 := fun hw => hzero (worth_eq_zero hc hw)
        rw [if_neg hw, digits, if_pos hlt, digit_worth hc]
        simp [hzero]
    · rw [if_neg hv, significant] at hih
      have hne : ds.dropWhile (· == '0') ≠ [] := by
        intro hnil
        rw [hnil] at hih
        exact r.digits_ne_nil _ hih.symm
      have hpos := Nat.pos_of_ne_zero hv
      have hle := Nat.le_mul_of_pos_right r.base hpos
      have hbase := r.two_le_base
      rw [if_neg (by simpa using hne), List.map_append, hih, if_neg (by omega),
        digits_mul_add hpos hlt, digit_worth hc]
      rfl

theorem significant_eq_iff {es : Text} (hds : ∀ d ∈ ds, r.isDigit d = true)
    (hes : ∀ d ∈ es, r.isDigit d = true) :
    significant ds = significant es ↔ r.value ds = r.value es := by
  rw [significant_eq hds, significant_eq hes]
  constructor
  · intro h
    split at h <;> split at h
    case isTrue.isTrue hd he => rw [hd, he]
    case isTrue.isFalse => exact absurd h.symm (r.digits_ne_nil _)
    case isFalse.isTrue => exact absurd h (r.digits_ne_nil _)
    case isFalse.isFalse => rw [← r.value_digits (r.value ds), h, r.value_digits]
  · intro h
    rw [h]

/-- Where only zero begins with a zero, no digit is left out but that of zero. -/
theorem length_significant (hne : ds ≠ []) (hzero : ds.head? = some '0' → ds = ['0']) :
    ds.length = max 1 (significant ds).length := by
  obtain ⟨d, ds, rfl⟩ := List.exists_cons_of_ne_nil hne
  by_cases hd : d = '0'
  · rw [hzero (congrArg some hd)]
    rfl
  · simp [significant, hd]

/-! Hexadecimal digits in small letters, after zeros. -/

private theorem toLower_digit {c : Char} (h : hexadecimal.isDigit c = true) :
    worth c.toLower = worth c ∧ hexadecimal.isDigit c.toLower = true := by
  have hall : ∀ k < 128, hexadecimal.isDigit (Char.ofNat k) = true →
      worth (Char.ofNat k).toLower = worth (Char.ofNat k) ∧
        hexadecimal.isDigit (Char.ofNat k).toLower = true := by
    decide +kernel
  have hc := hall c.toNat (lt_of_isDigit h)
  rw [Char.ofNat_toNat] at hc
  exact hc h

theorem isDigit_of_mem_toLower (h : ∀ d ∈ ds, hexadecimal.isDigit d = true) :
    ∀ d ∈ ds.map Char.toLower, hexadecimal.isDigit d = true :=
  List.forall_mem_map.2 fun d hd => (toLower_digit (h d hd)).2

theorem value_toLower (h : ∀ d ∈ ds, hexadecimal.isDigit d = true) :
    hexadecimal.value (ds.map Char.toLower) = hexadecimal.value ds := by
  induction ds using List.reverseRecOn with
  | nil => rfl
  | append_singleton ds c ih =>
    obtain ⟨hds, hc⟩ := List.forall_mem_append.1 h
    rw [List.map_append, List.map_singleton, value_append, value_append, ih hds,
      (toLower_digit (hc c List.mem_cons_self)).1]

theorem value_zeros (r : Radix) (k : Nat) (ds : Text) :
    r.value (List.replicate k '0' ++ ds) = r.value ds := by
  induction k with
  | zero => rfl
  | succ k ih => rw [← ih, List.replicate_succ, List.cons_append, value, List.foldl_cons]; rfl

end ProbeScript.Radix
