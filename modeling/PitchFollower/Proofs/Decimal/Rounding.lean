import PitchFollower.Decimal.Rounding
import PitchFollower.Proofs.Decimal.Digits
import PitchFollower.Proofs.Double.Rounding
import PitchFollower.Proofs.Single.Order

/-!
# Rounding decimals

The single precision number that is read from a decimal is the exact value of
the decimal, rounded once.  Decimals far outside the range, which are settled by
the position of their point alone, are no exception.
-/

namespace PitchFollower

open Float.Model (Format UnpackedFloat)
open Float.Model.UnpackedFloat

/-! ## Results out of range -/

namespace Single

section OutOfRange

variable {q : ℚ}

theorem roundsTo_infinity (h : 2 ^ 128 ≤ q) :
    RoundsTo q (ofUnpacked (.infinity .positive)) := by
  have hpos : 0 < q := (by positivity : (0 : ℚ) < 2 ^ 128).trans_le h
  have hlarge : 2 ^ 128 ≤ nearest q := by
    have hgrid := onGrid_zpow (e := 128) (by norm_num)
    exact_mod_cast hgrid.le_nearest (by exact_mod_cast h)
  unfold RoundsTo
  rw [if_neg (not_lt.mpr (hlarge.trans (le_abs_self _))), if_neg hpos.le.not_gt]
  exact unpacked_ofUnpacked trivial trivial

/-- Less than half of the least number is rounded to zero. -/
theorem nearest_eq_zero (hpos : 0 < q) (h : q < 2 ^ (-150 : ℤ)) :
    nearest q = 0 := by
  have hplace : lastPlace q = -149 := by
    have hlog :=
      (Int.lt_zpow_iff_log_lt (b := 2) (by norm_num) hpos).mp
        (by exact_mod_cast h)
    rw [lastPlace, abs_of_pos hpos]
    omega
  have hquot : q / 2 ^ (-149 : ℤ) < 1 / 2 := by
    rw [div_lt_iff₀ (two_zpow_pos _)]
    calc q < 2 ^ (-150 : ℤ) := h
      _ = 1 / 2 * 2 ^ (-149 : ℤ) := by norm_num
  have hnonneg : 0 ≤ q / 2 ^ (-149 : ℤ) :=
    div_nonneg hpos.le (two_zpow_pos _).le
  have hfloor : ⌊q / 2 ^ (-149 : ℤ)⌋ = 0 := by
    rw [Int.floor_eq_zero_iff]
    exact ⟨hnonneg, hquot.trans (by norm_num)⟩
  rw [nearest, hplace, nearestInt, hfloor, Int.cast_zero, sub_zero,
    if_pos hquot, Int.cast_zero, zero_mul]

theorem roundsTo_zero (hnonneg : 0 ≤ q) (h : q < 2 ^ (-150 : ℤ)) :
    RoundsTo q (ofUnpacked (.zero .positive)) := by
  apply roundsTo_ofUnpacked
  refine ⟨trivial, rfl, ?_⟩
  rcases hnonneg.eq_or_lt with rfl | hpos
  · exact nearest_zero.symm
  · exact (nearest_eq_zero hpos h).symm

end OutOfRange

end Single

/-! ## Decimals -/

namespace Decimal

open Single (IsNearest RoundsTo ofUnpacked roundsTo_infinity roundsTo_zero)

section Single

variable {n : ℕ} {k : ℤ}

theorem isNearest_mul_pow (hn : 0 < n) (j : ℕ) :
    IsNearest
      (roundWithAccuracy .binary32 .positive (n <<< 24 * 10 ^ j) (-24) .exact)
      (n * 10 ^ j) := by
  have hexact : ((n <<< 24 * 10 ^ j : ℕ) : ℚ) * 2 ^ (-24 : ℤ) = n * 10 ^ j := by
    rw [Nat.shiftLeft_eq]
    push_cast
    norm_num
    ring
  have hpos : 0 < n <<< 24 * 10 ^ j := by
    rw [Nat.shiftLeft_eq]
    positivity
  have hplace : -24 ≤
      Single.lastPlace (((n <<< 24 * 10 ^ j : ℕ) : ℚ) * 2 ^ (-24 : ℤ)) := by
    have hone : (1 : ℚ) ≤ n * 10 ^ j := by
      exact_mod_cast Nat.mul_pos hn (Nat.pow_pos (by norm_num))
    have hlog : 0 ≤ Int.log 2 ((n : ℚ) * 10 ^ j) := by
      rw [← Int.zpow_le_iff_le_log (by norm_num) (by linarith)]
      simpa using hone
    rw [hexact, Single.lastPlace, abs_of_pos (by linarith)]
    omega
  rw [← hexact]
  exact Single.isNearest_roundWithAccuracy (s := .positive)
    (by exact_mod_cast hpos)
    (Single.standsFor_exact _) (.inl hpos.ne') hplace

theorem isNearest_div_pow (hn : 0 < n) (j : ℕ) :
    let quotient := divCore .binary32 n 0 (10 ^ j) 0
    IsNearest (roundWithAccuracy .binary32 .positive quotient.1 quotient.2.1
      quotient.2.2)
      (n / 10 ^ j) := by
  have hspec :=
    Single.isNearest_divCore .positive 0 0 hn
      (Nat.pow_pos (n := j) (by norm_num : 0 < 10))
  have hexact : ((n * 2 ^ (0 : ℤ)) / ((10 ^ j : ℕ) * 2 ^ (0 : ℤ)) : ℚ) = n /
      10 ^ j := by
    push_cast
    norm_num
  rwa [hexact] at hspec

/-- Core settles exponents beyond those of the format by themselves. -/
theorem ofScientific_roundsTo (hn : 0 < n) (k : ℤ) :
    RoundsTo (n * 10 ^ k)
      (ofUnpacked (UnpackedFloat.ofScientific .binary32 n k)) := by
  unfold UnpackedFloat.ofScientific
  rw [dif_neg hn.ne']
  by_cases hlarge : k > 2 ^ Format.binary32.exponentBits
  · rw [if_pos hlarge]
    apply roundsTo_infinity
    norm_num at hlarge
    calc (2 : ℚ) ^ 128 ≤ 10 ^ (128 : ℤ) := by norm_num
      _ ≤ 10 ^ k := zpow_le_zpow_right₀ (by norm_num) (by omega)
      _ ≤ n * 10 ^ k := le_mul_ten_zpow hn k
  rw [if_neg hlarge]
  by_cases hsmall : k < -(2 ^ Format.binary32.exponentBits + n.log2)
  · rw [if_pos hsmall]
    apply roundsTo_zero (by positivity)
    norm_num at hsmall
    calc (n : ℚ) * 10 ^ k < 10 ^ (n.log2 + 1 + k : ℤ) := mul_ten_zpow_lt n k
      _ ≤ 10 ^ (-150 : ℤ) := zpow_le_zpow_right₀ (by norm_num) (by omega)
      _ ≤ 2 ^ (-150 : ℤ) := by norm_num
  rw [if_neg hsmall]
  rcases le_or_gt 0 k with hsign | hsign
  · rw [if_pos hsign]
    obtain ⟨j, rfl⟩ := Int.eq_ofNat_of_zero_le hsign
    rw [zpow_natCast]
    exact Single.roundsTo_ofUnpacked (isNearest_mul_pow hn j)
  · rw [if_neg hsign.not_ge]
    obtain ⟨j, hj⟩ := Int.eq_ofNat_of_zero_le (show 0 ≤ -k by omega)
    obtain rfl : k = -j := by omega
    have hspec := isNearest_div_pow hn j
    rw [zpow_neg, ← div_eq_mul_inv, zpow_natCast]
    apply Single.roundsTo_ofUnpacked
    rw [Binary.div_finite, neg_neg, Int.toNat_natCast]
    exact hspec

/-- A decimal is rounded once, wherever it lies. -/
theorem toSingle_roundsTo (d : Decimal) : RoundsTo d.value d.toSingle := by
  change RoundsTo d.value (ofUnpacked (d.nearest .binary32))
  unfold Decimal.nearest
  split_ifs with hzero hlarge hsmall
  · have hvalue : d.value = 0 := by rw [value, hzero, Nat.cast_zero, zero_mul]
    rw [hvalue]
    exact roundsTo_zero le_rfl (Single.two_zpow_pos _)
  · apply roundsTo_infinity
    calc (2 : ℚ) ^ 128 ≤ 10 ^ (128 : ℤ) := by norm_num
      _ ≤ 10 ^ (d.position - 1) := zpow_le_zpow_right₀ (by norm_num) (by omega)
      _ ≤ d.value := le_value (Nat.pos_of_ne_zero hzero)
  · apply roundsTo_zero (value_nonneg d)
    calc d.value < 10 ^ d.position := value_lt d
      _ ≤ 10 ^ (-150 : ℤ) := zpow_le_zpow_right₀ (by norm_num) (by omega)
      _ ≤ 2 ^ (-150 : ℤ) := by norm_num
  · exact ofScientific_roundsTo (Nat.pos_of_ne_zero hzero) d.exponent

end Single

end Decimal

end PitchFollower
