import Mathlib.Data.Rat.Cast.Order
import Mathlib.Tactic.FieldSimp
import Mathlib.Tactic.Linarith
import Mathlib.Tactic.NormNum
import Mathlib.Tactic.Positivity
import Mathlib.Tactic.Ring
import PitchFollower.Decimal.Basic

/-!
# Digits and values

The digits of a number write the number, zeros behind them multiply it, and the
position of the point bounds the exact value of a decimal by powers of ten.
-/

namespace PitchFollower.Decimal

/-! ## Digits -/

section Digits

variable {n : ℕ}

theorem ofDigits_digits (n : ℕ) : ofDigits (digits n) = n :=
  Nat.ofDigitChars_ten_toDigits

theorem ofDigits_append (xs ys : List Char) :
    ofDigits (xs ++ ys) = 10 ^ ys.length * ofDigits xs + ofDigits ys :=
  (Nat.ofDigitChars_append 0).trans Nat.ofDigitChars_eq_ofDigitChars_zero

theorem ofDigits_cons (c : Char) (ds : List Char) :
    ofDigits (c :: ds) = 10 ^ ds.length * digitValue c + ofDigits ds := by
  simpa [ofDigits] using ofDigits_append [c] ds

theorem ofDigits_zeros (count : ℕ) : ofDigits (List.replicate count '0') = 0 :=
  Nat.ofDigitChars_replicate_zero

theorem isDigit_of_mem_digits {c : Char} (h : c ∈ digits n) :
    c.isDigit = true :=
  Nat.isDigit_of_mem_toDigits (by norm_num) (by norm_num) h

theorem digitCount_pos (n : ℕ) : 0 < digitCount n :=
  Nat.length_toDigits_pos

theorem digits_ne_nil (n : ℕ) : digits n ≠ [] :=
  Nat.toDigits_ne_nil

theorem lt_pow_digitCount (n : ℕ) : n < 10 ^ digitCount n :=
  (Nat.length_toDigits_le_iff (by norm_num) (digitCount_pos n)).mp le_rfl

theorem pow_le_of_digitCount (hn : 0 < n) : 10 ^ (digitCount n - 1) ≤ n := by
  rcases Nat.eq_zero_or_pos (digitCount n - 1) with hone | hmore
  · rwa [hone, pow_zero]
  · have hlong : ¬ digitCount n ≤ digitCount n - 1 := by omega
    exact not_lt.mp
      (mt (Nat.length_toDigits_le_iff (by norm_num) hmore).mpr hlong)

theorem digitValue_lt {c : Char} (h : c.isDigit = true) :
    digitValue c < 10 := by
  have hbounds : '0'.toNat ≤ c.toNat ∧ c.toNat ≤ '9'.toNat := by
    simpa [Char.isDigit, UInt32.le_iff_toNat_le] using h
  have hnine : '9'.toNat = '0'.toNat + 9 := rfl
  unfold digitValue
  omega

theorem ofDigits_lt_pow {ds : List Char} (h : ∀ c ∈ ds, c.isDigit = true) :
    ofDigits ds < 10 ^ ds.length := by
  induction ds with
  | nil => exact Nat.one_pos
  | cons c ds ih =>
    have hc := digitValue_lt (h c List.mem_cons_self)
    have hds := ih fun d hd => h d (List.mem_cons_of_mem c hd)
    have hle : 10 ^ ds.length * (digitValue c + 1) ≤ 10 ^ ds.length * 10 :=
      Nat.mul_le_mul_left _ hc
    rw [ofDigits_cons, List.length_cons, pow_succ]
    rw [mul_add, mul_one] at hle
    omega

/-- Only zero has digits that begin with a zero. -/
theorem eq_zero_of_digits_eq_cons {ds : List Char} (h : digits n = '0' :: ds) :
    n = 0 := by
  by_contra hne
  have hleast := pow_le_of_digitCount (Nat.pos_of_ne_zero hne)
  have hvalue := ofDigits_digits n
  have hds : ofDigits ds < 10 ^ ds.length :=
    ofDigits_lt_pow fun c hc =>
      isDigit_of_mem_digits (h ▸ List.mem_cons_of_mem '0' hc)
  have happend : ofDigits ('0' :: ds) = ofDigits ds := rfl
  rw [h, happend] at hvalue
  rw [digitCount, h, List.length_cons, Nat.add_sub_cancel] at hleast
  omega

/-- The digits of a positive number do not begin with a zero. -/
theorem digits_eq_cons (hn : 0 < n) : ∃ d ds, digits n = d :: ds ∧ d ≠ '0' := by
  obtain ⟨d, ds, hcons⟩ := List.exists_cons_of_ne_nil (digits_ne_nil n)
  refine ⟨d, ds, hcons, ?_⟩
  rintro rfl
  exact hn.ne' (eq_zero_of_digits_eq_cons hcons)

theorem digits_zero : digits 0 = ['0'] :=
  Nat.toDigits_zero 10

end Digits

/-! ## Values -/

/-- The exact value of a decimal. -/
def value (d : Decimal) : ℚ :=
  d.significand * 10 ^ d.exponent

theorem ten_zpow_pos (k : ℤ) : (0 : ℚ) < 10 ^ k :=
  zpow_pos (by norm_num) k

/-- An integer power of a number is a power of it over another one. -/
theorem zpow_eq_div (b : ℚ) (e : ℤ) : b ^ e = b ^ e.toNat / b ^ (-e).toNat := by
  rcases le_total 0 e with he | he
  · obtain ⟨j, rfl⟩ := Int.eq_ofNat_of_zero_le he
    have hnone : (-(j : ℤ)).toNat = 0 := by omega
    rw [hnone, Int.toNat_natCast, pow_zero, div_one, zpow_natCast]
  · obtain ⟨j, hj⟩ := Int.eq_ofNat_of_zero_le (neg_nonneg.mpr he)
    obtain rfl : e = -j := by omega
    have hnone : (-(j : ℤ)).toNat = 0 := by omega
    rw [hnone, neg_neg, Int.toNat_natCast, pow_zero, one_div, zpow_neg,
      zpow_natCast]

theorem le_mul_ten_zpow {n : ℕ} (hn : 0 < n) (k : ℤ) :
    (10 : ℚ) ^ k ≤ n * 10 ^ k :=
  le_mul_of_one_le_left (ten_zpow_pos k).le (by exact_mod_cast hn)

/-- A number has no more decimal places than binary ones. -/
theorem mul_ten_zpow_lt (n : ℕ) (k : ℤ) :
    (n : ℚ) * 10 ^ k < 10 ^ (n.log2 + 1 + k : ℤ) := by
  have hlt : (n : ℚ) < 10 ^ (n.log2 + 1 : ℤ) := by
    exact_mod_cast (Nat.lt_log2_self (n := n)).trans_le
      (Nat.pow_le_pow_left (show 2 ≤ 10 by norm_num) _)
  rw [zpow_add₀ (by norm_num)]
  exact mul_lt_mul_of_pos_right hlt (ten_zpow_pos k)

section Value

variable {d : Decimal}

theorem value_nonneg (d : Decimal) : 0 ≤ d.value :=
  mul_nonneg (Nat.cast_nonneg _) (ten_zpow_pos _).le

theorem value_lt (d : Decimal) : d.value < 10 ^ d.position := by
  have hlt : (d.significand : ℚ) < 10 ^ (digitCount d.significand : ℤ) := by
    exact_mod_cast lt_pow_digitCount d.significand
  rw [value, position, zpow_add₀ (by norm_num)]
  exact mul_lt_mul_of_pos_right hlt (ten_zpow_pos _)

theorem le_value (h : 0 < d.significand) : 10 ^ (d.position - 1) ≤ d.value := by
  have hcount := digitCount_pos d.significand
  have hle : (10 : ℚ) ^ (digitCount d.significand - 1 : ℤ) ≤ d.significand := by
    have hpow := pow_le_of_digitCount h
    have hcast : (digitCount d.significand : ℤ) - 1 =
        (digitCount d.significand - 1 : ℕ) := by
      omega
    rw [hcast, zpow_natCast]
    exact_mod_cast hpow
  have hsplit : d.position - 1 = (digitCount d.significand - 1 : ℤ) +
      d.exponent := by
    unfold position
    ring
  rw [value, hsplit, zpow_add₀ (by norm_num)]
  exact mul_le_mul_of_nonneg_right hle (ten_zpow_pos _).le

/-- Zeros behind the significand can be traded for the exponent. -/
theorem value_shift (n : ℕ) (k : ℤ) (j : ℕ) :
    value ⟨n * 10 ^ j, k - j⟩ = value ⟨n, k⟩ := by
  unfold value
  rw [zpow_sub₀ (by norm_num), zpow_natCast]
  push_cast
  field_simp

end Value

end PitchFollower.Decimal
