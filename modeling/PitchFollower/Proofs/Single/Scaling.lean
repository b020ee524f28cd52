import PitchFollower.Proofs.Single.Bits
import PitchFollower.Proofs.Single.Places

/-!
# Moving the binary point

Multiplying by a power of two moves the binary point and leaves a mantissa as it
is.  Rounding does not notice, as long as the mantissa stays full and the result
in range.  So sums and quotients of scaled numbers are the scaled sums and
quotients, and the quotient of two numbers on the same scale is the same number,
bit by bit.
-/

namespace PitchFollower.Single

/-- Zero, or of a magnitude that can be moved by 30 binary places up or down
with a full mantissa. -/
def Movable (q : ℚ) : Prop :=
  q = 0 ∨ 2 ^ (-96 : ℤ) ≤ |q| ∧ |q| ≤ 2 ^ (97 : ℤ)

/-- The number `y` is `x`, moved up by `k` binary places. -/
structure Scaled (k : ℤ) (x y : Float32) : Prop where
  isFinite : x.isFinite = true
  scaled_isFinite : y.isFinite = true
  exact_eq : exact y = exact x * 2 ^ k

section Scaling

variable {k : ℤ} {q : ℚ} {x x' y y' z z' : Float32}

theorem Movable.nearest_mul_zpow (hq : Movable q) (hk : |k| ≤ 30) :
    nearest (q * 2 ^ k) = nearest q * 2 ^ k := by
  rw [abs_le] at hk
  rcases hq with rfl | ⟨hleast, -⟩
  · rw [zero_mul, nearest_zero, zero_mul]
  · apply Single.nearest_mul_zpow
    · exact le_trans (zpow_le_zpow_right₀ (by norm_num) (by norm_num)) hleast
    · calc (2 : ℚ) ^ (-126 : ℤ) ≤ 2 ^ (-96 + k) :=
            zpow_le_zpow_right₀ (by norm_num) (by omega)
        _ = 2 ^ (-96 : ℤ) * 2 ^ k := zpow_add₀ (by norm_num) _ _
        _ ≤ |q| * 2 ^ k := mul_le_mul_of_nonneg_right hleast (two_zpow_pos k).le

theorem Movable.abs_le (hq : Movable q) : |q| ≤ 2 ^ (97 : ℤ) := by
  rcases hq with rfl | ⟨-, hmost⟩
  · rw [abs_zero]
    exact (two_zpow_pos 97).le
  · exact hmost

/-- The results of an operation on two scales are on these scales again. -/
theorem scaled_of_roundsTo (h : RoundsTo q z) (h' : RoundsTo (q * 2 ^ k) z')
    (hk : |k| ≤ 30) (hq : Movable q) : Scaled k z z' := by
  have hmost : |q * 2 ^ k| ≤ 2 ^ (127 : ℤ) := by
    calc |q * 2 ^ k| = |q| * 2 ^ k := by
          rw [abs_mul, abs_of_pos (two_zpow_pos k)]
      _ ≤ 2 ^ (97 : ℤ) * 2 ^ (30 : ℤ) := by
        gcongr
        · exact hq.abs_le
        · norm_num
        · exact (le_abs_self k).trans hk
      _ = 2 ^ (127 : ℤ) := by norm_num
  obtain ⟨hfinite, hexact⟩ :=
    h.finite_of_abs_le (onGrid_zpow (by norm_num)) (by norm_num) hq.abs_le
  obtain ⟨hfinite', hexact'⟩ :=
    h'.finite_of_abs_le (onGrid_zpow (by norm_num)) (by norm_num) hmost
  exact ⟨hfinite, hfinite', by rw [hexact, hexact', hq.nearest_mul_zpow hk]⟩

theorem roundsTo_exact (hx : x.isFinite = true) : RoundsTo (exact x) x := by
  have hexact := nearest_of_onGrid (onGrid_exact x)
  rw [RoundsTo, hexact, if_pos (abs_exact_lt x)]
  exact ⟨hx, rfl⟩

theorem isFinite_of_exact_ne_zero (hne : exact x ≠ 0) : x.isFinite = true := by
  rw [isFinite_iff]
  cases h : unpacked x with
  | zero s => rfl
  | finite s m e hm => rfl
  | infinity s => exact absurd (congrArg exactOf h) hne
  | notANumber => exact absurd (congrArg exactOf h) hne

/-- Multiplying by a power of two is exact. -/
theorem scaled_mul {gain : Float32} (hx : x.isFinite = true)
    (hgain : exact gain = 2 ^ k) (hk : |k| ≤ 30)
    (hmovable : Movable (exact x)) : Scaled k x (x * gain) := by
  have hne : exact gain ≠ 0 := hgain ▸ (two_zpow_pos k).ne'
  have hround := mul_roundsTo hx (isFinite_of_exact_ne_zero hne)
  rw [hgain] at hround
  exact scaled_of_roundsTo (roundsTo_exact hx) hround hk hmovable

theorem Scaled.neg (hx : Scaled k x x') : Scaled k (-x) (-x') := by
  refine ⟨?_, ?_, ?_⟩
  · rw [isFinite_neg]
    exact hx.isFinite
  · rw [isFinite_neg]
    exact hx.scaled_isFinite
  · rw [exact_neg, exact_neg, hx.exact_eq, neg_mul]

theorem Scaled.abs (hx : Scaled k x x') : Scaled k x.abs x'.abs := by
  refine ⟨?_, ?_, ?_⟩
  · rw [isFinite_abs]
    exact hx.isFinite
  · rw [isFinite_abs]
    exact hx.scaled_isFinite
  · rw [exact_abs, exact_abs, hx.exact_eq, abs_mul, abs_of_pos (two_zpow_pos k)]

theorem Scaled.neg_iff (hx : Scaled k x x') : x' < 0 ↔ x < 0 := by
  rw [Single.neg_iff hx.scaled_isFinite, Single.neg_iff hx.isFinite,
    hx.exact_eq, ← not_le, mul_nonneg_iff_of_pos_right (two_zpow_pos k), not_le]

theorem Scaled.pos_iff (hx : Scaled k x x') : 0 < x' ↔ 0 < x := by
  rw [Single.pos_iff hx.scaled_isFinite, Single.pos_iff hx.isFinite,
    hx.exact_eq, mul_pos_iff_of_pos_right (two_zpow_pos k)]

theorem Scaled.add (hx : Scaled k x x') (hy : Scaled k y y') (hk : |k| ≤ 30)
    (hsum : Movable (exact x + exact y)) : Scaled k (x + y) (x' + y') := by
  have hround := add_roundsTo hx.scaled_isFinite hy.scaled_isFinite
  rw [hx.exact_eq, hy.exact_eq, ← add_mul] at hround
  exact scaled_of_roundsTo (add_roundsTo hx.isFinite hy.isFinite) hround hk hsum

theorem Scaled.sub (hx : Scaled k x x') (hy : Scaled k y y') (hk : |k| ≤ 30)
    (hdiff : Movable (exact x - exact y)) : Scaled k (x - y) (x' - y') := by
  rw [single_sub_eq_add_neg, single_sub_eq_add_neg]
  apply hx.add hy.neg hk
  rwa [exact_neg, ← sub_eq_add_neg]

/-- A divisor on no scale leaves the quotient on the scale of the dividend. -/
theorem Scaled.div (hx : Scaled k x x') (hy : y.isFinite = true)
    (hne : exact y ≠ 0) (hk : |k| ≤ 30) (hquot : Movable (exact x / exact y)) :
    Scaled k (x / y) (x' / y) := by
  have hround := div_roundsTo hx.scaled_isFinite hy hne
  rw [hx.exact_eq, mul_div_right_comm] at hround
  exact scaled_of_roundsTo (div_roundsTo hx.isFinite hy hne) hround hk hquot

/-- A quotient does not depend on the scale of its operands. -/
theorem Scaled.div_eq (hx : Scaled k x x') (hy : Scaled k y y')
    (hne : exact y ≠ 0) (hquot : nearest (exact x / exact y) ≠ 0) :
    x' / y' = x / y := by
  have hne' : exact y' ≠ 0 := by
    rw [hy.exact_eq]
    exact mul_ne_zero hne (two_zpow_pos k).ne'
  have hround := div_roundsTo hx.scaled_isFinite hy.scaled_isFinite hne'
  rw [hx.exact_eq, hy.exact_eq,
    mul_div_mul_right _ _ (two_zpow_pos k).ne'] at hround
  exact hround.eq_of_nearest_eq (div_roundsTo hx.isFinite hy.isFinite hne)
    rfl hquot

end Scaling

end PitchFollower.Single
