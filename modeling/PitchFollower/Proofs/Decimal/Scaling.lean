import PitchFollower.Decimal.Scaling
import PitchFollower.Proofs.Decimal.Separation
import PitchFollower.Proofs.Double.Rounding

/-!
# Scaling in double precision

A magnitude is scaled with two rounded steps: the power of ten is rounded, and
so is the product or quotient with it.  The result is off by no more than the
drift that keeps clear of the midpoints.  Nothing is rounded where the power is
one of the small ones and the value itself fits into double precision.  A
decimal of few digits is such a magnitude itself; the digits of a whole word are
rounded before.
-/

namespace PitchFollower.Decimal

open Float.Model (UnpackedFloat)
open Double (IsNormal Moderate RoundsTo exact unpacked)
open Single (exactOf exactOf_finite)

/-! ## Powers of ten -/

/-- A number with a full mantissa whose value is a given natural number. -/
def IsWhole (n : ℕ) : UnpackedFloat → Prop
  | .finite .positive m e _ =>
    2 ^ 52 ≤ m ∧ m < 2 ^ 53 ∧ -1074 ≤ e ∧ e ≤ 971 ∧
      m * 2 ^ e.toNat = n * 2 ^ (-e).toNat
  | _ => False

instance (n : ℕ) : DecidablePred (IsWhole n)
  | .finite .positive .. => inferInstanceAs (Decidable (_ ∧ _))
  | .finite .negative .. => .isFalse id
  | .zero _ => .isFalse id
  | .infinity _ => .isFalse id
  | .notANumber => .isFalse id

theorem IsWhole.roundsTo {n : ℕ} {u : UnpackedFloat} (h : IsWhole n u) :
    RoundsTo n u := by
  cases u with
  | finite s m e hm =>
    cases s with
    | positive =>
      obtain ⟨hlow, hhigh, hleast, hmost, hvalue⟩ := h
      have hexact : exactOf (.finite .positive m e hm) = n := by
        have hpow : (2 : ℚ) ^ (-e).toNat ≠ 0 := by positivity
        rw [exactOf_finite, Single.signed, zpow_eq_div, ← mul_div_assoc,
          div_eq_iff hpow]
        exact_mod_cast hvalue
      rw [← hexact]
      exact IsNormal.roundsTo ⟨m, e, hm, rfl, hlow, hhigh, hleast, hmost⟩
    | negative => exact h.elim
  | _ => exact h.elim

/-- The powers that are kept in a table are exact. -/
theorem isWhole_powerOfTen :
    ∀ j < 23, IsWhole (10 ^ j) (unpacked (powerOfTen j)) := by
  decide +kernel

theorem moderate_of_le {q : ℚ} (hlow : 10 ^ (-100 : ℤ) ≤ q)
    (hhigh : q ≤ 10 ^ (100 : ℤ)) : Moderate q where
  low :=
    calc (2 : ℚ) ^ (-1022 : ℤ) ≤ 2 ^ (-400 : ℤ) :=
          zpow_le_zpow_right₀ (by norm_num) (by norm_num)
      _ = 2 ^ (-200 : ℤ) * 2 ^ (-200 : ℤ) :=
        zpow_add₀ (by norm_num) (-200) (-200)
      _ ≤ 10 ^ (-100 : ℤ) := by norm_num
      _ ≤ q := hlow
  high :=
    calc q ≤ 10 ^ (100 : ℤ) := hhigh
      _ < 2 ^ (200 : ℤ) * 2 ^ (200 : ℤ) := by norm_num
      _ = 2 ^ (400 : ℤ) := (zpow_add₀ (by norm_num) 200 200).symm
      _ ≤ 2 ^ (1023 : ℤ) := zpow_le_zpow_right₀ (by norm_num) (by norm_num)

theorem powerOfTen_roundsTo {j : ℕ} (hj : j ≤ 70) :
    RoundsTo (10 ^ j) (unpacked (powerOfTen j)) := by
  rcases Nat.lt_or_ge j 23 with hsmall | hlarge
  · simpa using (isWhole_powerOfTen j hsmall).roundsTo
  · have hcore : powerOfTen j =
        .ofModel (.pack (.ofScientific .binary64 1 j)) := by
      unfold powerOfTen Float.ofScientific
      exact dif_neg (by omega)
    have hrange : Moderate ((1 : ℕ) * 10 ^ (j : ℤ)) := by
      rw [Nat.cast_one, one_mul]
      exact moderate_of_le (zpow_le_zpow_right₀ (by norm_num) (by omega))
        (zpow_le_zpow_right₀ (by norm_num) (by omega))
    have hround := Double.ofScientific_roundsTo Nat.one_pos hrange
    rw [hcore, hround.unpacked_eq]
    simpa using hround

theorem exact_powerOfTen {j : ℕ} (hj : j ≤ 22) :
    exact (powerOfTen j) = 10 ^ j := by
  have hround := powerOfTen_roundsTo (show j ≤ 70 by omega)
  refine hround.exact (5 ^ j) j ?_ ?_
  · exact (Nat.pow_le_pow_right (by norm_num) hj).trans_lt (by norm_num)
  · rw [zpow_natCast, ← Nat.cast_ofNat (n := 5), Nat.cast_pow]
    push_cast
    rw [← mul_pow]
    norm_num

/-! ## Scaled decimals -/

/-- A rounded factor and a rounded product. -/
theorem mul_drift {n p b r : ℚ} (hn : 0 < n) (hb : 0 < b)
    (hp : |p - b| ≤ b / 2 ^ 53) (hr : |r - n * p| ≤ n * p / 2 ^ 53) :
    |r - n * b| ≤ drift * (n * b) := by
  have hdrift : (2 ^ 54 + 1) / 2 ^ 106 ≤ drift := by norm_num [drift]
  have hnb := mul_pos hn hb
  have hshift : |n * p - n * b| ≤ n * b / 2 ^ 53 := by
    rw [← mul_sub, abs_mul, abs_of_pos hn, mul_div_assoc]
    exact mul_le_mul_of_nonneg_left hp hn.le
  have hsmall := (abs_le.mp hshift).2
  calc |r - n * b| ≤ |r - n * p| + |n * p - n * b| := abs_sub_le _ _ _
    _ ≤ n * p / 2 ^ 53 + n * b / 2 ^ 53 := add_le_add hr hshift
    _ ≤ (2 ^ 54 + 1) / 2 ^ 106 * (n * b) := by linarith
    _ ≤ drift * (n * b) := mul_le_mul_of_nonneg_right hdrift hnb.le

/-- A rounded divisor and a rounded quotient. -/
theorem div_drift {n p b r : ℚ} (hn : 0 < n) (hb : 0 < b)
    (hp : |p - b| ≤ b / 2 ^ 53) (hr : |r - n / p| ≤ n / p / 2 ^ 53) :
    |r - n / b| ≤ drift * (n / b) := by
  have hdrift : 2 / (2 ^ 53 - 1) ≤ drift := by norm_num [drift]
  have hnb := div_pos hn hb
  have hlow : b * ((2 ^ 53 - 1) / 2 ^ 53) ≤ p := by linarith [(abs_le.mp hp).1]
  have hppos : 0 < p := lt_of_lt_of_le (by positivity) hlow
  have hquot : n / p ≤ 2 ^ 53 / (2 ^ 53 - 1) * (n / b) :=
    calc n / p ≤ n / (b * ((2 ^ 53 - 1) / 2 ^ 53)) :=
          div_le_div_of_nonneg_left hn.le (by positivity) hlow
      _ = 2 ^ 53 / (2 ^ 53 - 1) * (n / b) := by field_simp
  have hshift : |n / p - n / b| ≤ n / p / 2 ^ 53 := by
    have hrelative : |(b - p) / b| ≤ 1 / 2 ^ 53 := by
      rw [abs_div, abs_of_pos hb, abs_sub_comm, div_le_iff₀ hb]
      linarith
    calc |n / p - n / b| = |n / p * ((b - p) / b)| := by congr 1; field_simp
      _ = n / p * |(b - p) / b| := by
        rw [abs_mul, abs_of_pos (div_pos hn hppos)]
      _ ≤ n / p * (1 / 2 ^ 53) :=
        mul_le_mul_of_nonneg_left hrelative (div_pos hn hppos).le
      _ = n / p / 2 ^ 53 := by rw [mul_one_div]
  calc |r - n / b| ≤ |r - n / p| + |n / p - n / b| := abs_sub_le _ _ _
    _ ≤ n / p / 2 ^ 53 + n / p / 2 ^ 53 := add_le_add hr hshift
    _ ≤ 2 / (2 ^ 53 - 1) * (n / b) := by linarith
    _ ≤ drift * (n / b) := mul_le_mul_of_nonneg_right hdrift hnb.le

/-! ## What is scaled -/

/-- What the two rounded steps make of a magnitude whose product with the power
of ten is `q`. -/
structure ScalesTo (x : Float) (k : ℤ) (q : ℚ) (r : Float) : Prop where
  scaled : scale? x k = some r
  normal : IsNormal (unpacked r)
  error : |exact r - q| ≤ drift * q
  rounds : k.natAbs ≤ 22 → RoundsTo q (unpacked r)

/-- The power of ten is close to the exact one. -/
theorem powerOfTen_bounds {j : ℕ} (hj : j ≤ 70) :
    1 / 2 ≤ exact (powerOfTen j) ∧ exact (powerOfTen j) ≤ 10 ^ (71 : ℤ) := by
  have herror := abs_le.mp (powerOfTen_roundsTo hj).error
  have hone : (1 : ℚ) ≤ 10 ^ j := one_le_pow₀ (by norm_num)
  have hmost : (10 : ℚ) ^ j ≤ 10 ^ 70 := pow_le_pow_right₀ (by norm_num) hj
  have hexact : Double.exact (powerOfTen j) =
      exactOf (unpacked (powerOfTen j)) := rfl
  constructor
  · linarith
  · norm_num
    linarith

section Scaled

variable {x : Float} {k : ℤ}

theorem scale?_of_nonneg (hsign : 0 ≤ k) (hmost : k ≤ 308)
    (hnormal : IsNormal (unpacked (x * powerOfTen k.toNat))) :
    scale? x k = some (x * powerOfTen k.toNat) := by
  have hrange : ¬ (maxPower : ℤ) < k := not_lt.mpr hmost
  unfold scale?
  simp only [if_neg hrange, if_pos hsign, hnormal.isInf_eq_false,
    Bool.false_eq_true, if_false]

theorem scale?_of_neg (hsign : k < 0) (hleast : -308 ≤ k) :
    scale? x k = some (x / powerOfTen k.natAbs) := by
  have hrange : ¬ (maxPower : ℤ) < k := by
    unfold maxPower
    omega
  have hfirst : -(maxPower : ℤ) ≤ k := hleast
  unfold scale?
  simp only [if_neg hrange, if_neg hsign.not_ge, if_pos hfirst]

variable (hnormal : IsNormal (unpacked x))
variable (hleast : 1 / 2 ≤ exact x) (hmost : exact x ≤ 2 ^ 65)

include hnormal hleast hmost

theorem exists_scalesTo_of_nonneg (hsign : 0 ≤ k) (hk : k ≤ 70) :
    ∃ r, ScalesTo x k (exact x * 10 ^ k) r := by
  obtain ⟨j, rfl⟩ := Int.eq_ofNat_of_zero_le hsign
  have hpower := powerOfTen_roundsTo (show j ≤ 70 by omega)
  obtain ⟨hlow, hhigh⟩ := powerOfTen_bounds (show j ≤ 70 by omega)
  have hpos : 0 < exact x := one_half_pos.trans_le hleast
  have hrange : Moderate (exact x * exact (powerOfTen j)) := by
    refine moderate_of_le ?_ ?_
    · calc (10 : ℚ) ^ (-100 : ℤ) ≤ 1 / 2 * (1 / 2) := by norm_num
        _ ≤ exact x * exact (powerOfTen j) :=
          mul_le_mul hleast hlow (by norm_num) hpos.le
    · calc exact x * exact (powerOfTen j) ≤ 2 ^ 65 * 10 ^ (71 : ℤ) :=
            mul_le_mul hmost hhigh (by linarith) (by norm_num)
        _ ≤ 10 ^ (100 : ℤ) := by norm_num
  have hround := Double.mul_roundsTo hnormal hpower.normal hrange
  rw [zpow_natCast]
  refine ⟨_, scale?_of_nonneg hsign (by omega) hround.normal,
    hround.normal, ?_, ?_⟩
  · exact mul_drift hpos (by positivity) hpower.error hround.error
  · intro hsmall
    rwa [exact_powerOfTen (show j ≤ 22 from hsmall)] at hround

theorem exists_scalesTo_of_neg (hsign : k < 0) (hk : -70 ≤ k) :
    ∃ r, ScalesTo x k (exact x * 10 ^ k) r := by
  obtain ⟨j, hj⟩ := Int.eq_ofNat_of_zero_le (neg_nonneg.mpr hsign.le)
  obtain rfl : k = -j := by omega
  have hpower := powerOfTen_roundsTo (show j ≤ 70 by omega)
  obtain ⟨hlow, hhigh⟩ := powerOfTen_bounds (show j ≤ 70 by omega)
  have hpos : 0 < exact x := one_half_pos.trans_le hleast
  have hrange : Moderate (exact x / exact (powerOfTen j)) := by
    refine moderate_of_le ?_ ?_
    · calc (10 : ℚ) ^ (-100 : ℤ) ≤ 1 / 2 / 10 ^ (71 : ℤ) := by norm_num
        _ ≤ exact x / exact (powerOfTen j) :=
          div_le_div₀ hpos.le hleast (by linarith) hhigh
    · calc exact x / exact (powerOfTen j) ≤ 2 ^ 65 / (1 / 2) :=
            div_le_div₀ (by norm_num) hmost (by norm_num) hlow
        _ ≤ 10 ^ (100 : ℤ) := by norm_num
  have hround := Double.div_roundsTo hnormal hpower.normal hrange
  have hscaled := scale?_of_neg (x := x) hsign (by omega)
  rw [Int.natAbs_neg, Int.natAbs_natCast] at hscaled
  rw [zpow_neg, zpow_natCast, ← div_eq_mul_inv]
  refine ⟨_, hscaled, hround.normal, ?_, ?_⟩
  · exact div_drift hpos (by positivity) hpower.error hround.error
  · intro hsmall
    rwa [exact_powerOfTen (by simpa using hsmall)] at hround

/-- A magnitude no greater than a word is scaled with little drift. -/
theorem exists_scalesTo (hk : k.natAbs ≤ 70) :
    ∃ r, ScalesTo x k (exact x * 10 ^ k) r := by
  by_cases hsign : 0 ≤ k
  · exact exists_scalesTo_of_nonneg hnormal hleast hmost hsign (by omega)
  · exact exists_scalesTo_of_neg hnormal hleast hmost (not_le.mp hsign)
      (by omega)

end Scaled

/-! ## Scaled decimals -/

section Decimals

variable {d : Decimal} (hpos : 0 < d.significand) (hk : d.exponent.natAbs ≤ 70)

include hpos hk

theorem moderate_value (hword : d.significand < 2 ^ 64) : Moderate d.value := by
  have hmost : (d.significand : ℚ) ≤ 2 ^ 64 := by exact_mod_cast hword.le
  have hlow : (10 : ℚ) ^ (-70 : ℤ) ≤ 10 ^ d.exponent :=
    zpow_le_zpow_right₀ (by norm_num) (by omega)
  have hhigh : (10 : ℚ) ^ d.exponent ≤ 10 ^ (70 : ℤ) :=
    zpow_le_zpow_right₀ (by norm_num) (by omega)
  refine moderate_of_le ?_ ?_
  · calc (10 : ℚ) ^ (-100 : ℤ) ≤ 10 ^ (-70 : ℤ) := by norm_num
      _ ≤ 10 ^ d.exponent := hlow
      _ ≤ d.value := le_mul_ten_zpow hpos _
  · calc d.value ≤ 2 ^ 64 * 10 ^ (70 : ℤ) :=
          mul_le_mul hmost hhigh (ten_zpow_pos _).le (by norm_num)
      _ ≤ 10 ^ (100 : ℤ) := by norm_num

/-- The digits are rounded before the value is. -/
theorem exists_scalesTo_of_word (hword : d.significand < 2 ^ 64) :
    ∃ r, ScalesTo d.significand.toUInt64.toFloat d.exponent
      (exact d.significand.toUInt64.toFloat * 10 ^ d.exponent) r := by
  have hround := Double.toFloat_roundsTo hpos hword
  have hone : (1 : ℚ) ≤ d.significand := by exact_mod_cast hpos
  have hmost : (d.significand : ℚ) ≤ 2 ^ 64 := by exact_mod_cast hword.le
  have herror := abs_le.mp hround.error
  have hexact : exact d.significand.toUInt64.toFloat =
      exactOf (unpacked d.significand.toUInt64.toFloat) := rfl
  exact exists_scalesTo hround.normal (by linarith) (by linarith) hk

/-- A decimal of few digits is scaled with little drift. -/
theorem exists_scalesTo_of_few (hfew : d.significand < 2 ^ 53) :
    ∃ r, ScalesTo d.significand.toUInt64.toFloat d.exponent d.value r := by
  have hscales := exists_scalesTo_of_word hpos hk (hfew.trans (by norm_num))
  rwa [(Double.toFloat_spec hpos hfew).2] at hscales

/-- A decimal with a word of digits is scaled to a number close to its value. -/
theorem exists_scaled_near (hword : d.significand < 2 ^ 64) :
    ∃ r, d.scaled? = some r ∧ IsNormal (unpacked r) ∧
      |exact r - d.value| ≤ 7 / 2 ^ 54 * d.value := by
  obtain ⟨r, hscaled, hnormal, herror, -⟩ :=
    exists_scalesTo_of_word hpos hk hword
  have hround := (Double.toFloat_roundsTo hpos hword).error
  refine ⟨r, hscaled, hnormal, ?_⟩
  generalize hn : exact d.significand.toUInt64.toFloat = n at *
  have hunit := ten_zpow_pos d.exponent
  have hdigits : |n * 10 ^ d.exponent - d.value| ≤ 1 / 2 ^ 53 * d.value := by
    have hexact : n = exactOf (unpacked d.significand.toUInt64.toFloat) :=
      hn.symm
    rw [value, ← sub_mul, abs_mul, abs_of_pos hunit, ← mul_assoc,
      one_div_mul_eq_div, hexact]
    exact mul_le_mul_of_nonneg_right hround hunit.le
  have hdrift : drift ≤ 9 / 2 ^ 55 := by norm_num [drift]
  have hvalue := value_nonneg d
  have hpos' : 0 ≤ n * 10 ^ d.exponent := by linarith [(abs_le.mp hdigits).1]
  have hscale : |exact r - n * 10 ^ d.exponent| ≤
      9 / 2 ^ 55 * (n * 10 ^ d.exponent) :=
    herror.trans (mul_le_mul_of_nonneg_right hdrift hpos')
  calc |exact r - d.value|
      ≤ |exact r - n * 10 ^ d.exponent| + |n * 10 ^ d.exponent - d.value| :=
        abs_sub_le _ _ _
    _ ≤ 7 / 2 ^ 54 * d.value := by linarith [(abs_le.mp hdigits).2]

end Decimals

end PitchFollower.Decimal
