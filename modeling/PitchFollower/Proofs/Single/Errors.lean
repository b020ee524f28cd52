import PitchFollower.Proofs.Single.Magnitude
import PitchFollower.Proofs.Single.Places

/-!
# Relative errors

A result is off by one part in `2 ^ 24` at most, or, where numbers are as close
as they get, by half of the least number.  So a bound on an exact result is a
bound on the rounded one, but for these two parts.
-/

namespace PitchFollower.Single

/-- What rounding adds to a magnitude, or takes away from it. -/
def slack (r : ℚ) : ℚ :=
  r * 2 ^ (-24 : ℤ) + 2 ^ (-150 : ℤ)

theorem slack_mono {q r : ℚ} (h : q ≤ r) : slack q ≤ slack r := by
  have := mul_le_mul_of_nonneg_right h (two_zpow_pos (-24)).le
  unfold slack
  linarith

theorem abs_nearest_sub_le_of_lastPlace {q : ℚ} (h : -149 < lastPlace q) :
    |nearest q - q| ≤ |q| * 2 ^ (-24 : ℤ) := by
  rcases eq_or_ne q 0 with rfl | hne
  · rw [nearest_zero, sub_zero, abs_zero, zero_mul]
  have hhalf : (2 : ℚ) ^ lastPlace q / 2 =
      2 ^ (lastPlace q + 23) * 2 ^ (-24 : ℤ) := by
    rw [div_eq_mul_inv, ← zpow_neg_one, ← zpow_add₀ (by norm_num),
      ← zpow_add₀ (by norm_num)]
    congr 1
    ring
  calc |nearest q - q| ≤ 2 ^ lastPlace q / 2 := abs_nearest_sub_le q
    _ = 2 ^ (lastPlace q + 23) * 2 ^ (-24 : ℤ) := hhalf
    _ ≤ |q| * 2 ^ (-24 : ℤ) :=
      mul_le_mul_of_nonneg_right (zpow_lastPlace_le_abs hne h)
        (two_zpow_pos (-24)).le

theorem abs_nearest_sub_le_slack (q : ℚ) : |nearest q - q| ≤ slack |q| := by
  have hleast : -149 ≤ lastPlace q := le_max_right _ _
  unfold slack
  rcases hleast.lt_or_eq with hplace | hplace
  · exact (abs_nearest_sub_le_of_lastPlace hplace).trans
      (le_add_of_nonneg_right (two_zpow_pos (-150)).le)
  · have hhalf : (2 : ℚ) ^ (-149 : ℤ) / 2 = 2 ^ (-150 : ℤ) := by norm_num
    refine (abs_nearest_sub_le q).trans ?_
    rw [← hplace, hhalf]
    exact le_add_of_nonneg_left (mul_nonneg (abs_nonneg q) (two_zpow_pos _).le)

/-- A multiple of the least number is off by one part in `2 ^ 24`, however small
it is. -/
theorem OnPlace.abs_nearest_sub_le {q : ℚ} (h : OnPlace (-149) q) :
    |nearest q - q| ≤ |q| * 2 ^ (-24 : ℤ) := by
  have hleast : -149 ≤ lastPlace q := le_max_right _ _
  rcases hleast.lt_or_eq with hplace | hplace
  · exact abs_nearest_sub_le_of_lastPlace hplace
  · have hsmall := abs_lt_zpow_lastPlace q
    rw [← hplace] at hsmall
    rw [nearest_of_onGrid (h.onGrid le_rfl hsmall), sub_self, abs_zero]
    exact mul_nonneg (abs_nonneg q) (two_zpow_pos _).le

theorem RoundsTo.near {q : ℚ} {z : Float32} (h : RoundsTo q z)
    (hq : |q| ≤ 2 ^ (127 : ℤ)) :
    z.isFinite = true ∧ |exact z - q| ≤ slack |q| := by
  obtain ⟨hfinite, hexact⟩ :=
    h.finite_of_abs_le (onGrid_zpow (by norm_num)) (by norm_num) hq
  exact ⟨hfinite, hexact ▸ abs_nearest_sub_le_slack q⟩

/-- A bound on an exact result that is not too large bounds the rounded one, but
for the slack. -/
theorem RoundsTo.within_slack {q r : ℚ} {z : Float32} (h : RoundsTo q z)
    (hq : |q| ≤ r) (hr : r ≤ 2 ^ (127 : ℤ)) : Within (r + slack r) z := by
  obtain ⟨hfinite, hnear⟩ := h.near (hq.trans hr)
  refine ⟨hfinite, ?_⟩
  calc |exact z| = |q + (exact z - q)| := by rw [add_sub_cancel]
    _ ≤ |q| + |exact z - q| := abs_add_le _ _
    _ ≤ r + slack r := add_le_add hq (hnear.trans (slack_mono hq))

/-! ## Relative nearness -/

/-- `x` is off from `y` by no more than the part `u` of it. -/
def Near (u x y : ℚ) : Prop :=
  |x - y| ≤ |y| * u

section Nearness

variable {u v x y z w : ℚ}

theorem Near.mono (h : Near u x y) (huv : u ≤ v) : Near v x y :=
  h.trans (mul_le_mul_of_nonneg_left huv (abs_nonneg y))

theorem Near.abs_le_mul (h : Near u x y) : |x| ≤ |y| * (1 + u) := by
  have := abs_sub_abs_le_abs_sub x y
  unfold Near at h
  linarith

theorem Near.trans (hxy : Near u x y) (hyz : Near v y z) (hu : 0 ≤ u) :
    Near (u + v + u * v) x z := by
  have hmiddle := mul_le_mul_of_nonneg_right hyz.abs_le_mul hu
  unfold Near at *
  calc |x - z| ≤ |x - y| + |y - z| := abs_sub_le x y z
    _ ≤ |y| * u + |z| * v := add_le_add hxy hyz
    _ ≤ |z| * (u + v + u * v) := by linarith

/-- A summand that is exact and not negative makes the error smaller. -/
theorem Near.add_left (h : Near u x y) (hu : 0 ≤ u) (hy : 0 ≤ y) (hz : 0 ≤ z) :
    Near u (z + x) (z + y) := by
  have hmore := mul_nonneg hz hu
  unfold Near at *
  rw [abs_of_nonneg hy] at h
  rw [add_sub_add_left_eq_sub, abs_of_nonneg (add_nonneg hz hy)]
  linarith

theorem Near.pos (h : Near u x y) (hu : u < 1) (hy : 0 < y) : 0 < x := by
  have hlow := (abs_le.mp h).1
  have hroom := mul_pos hy (sub_pos.mpr hu)
  rw [abs_of_pos hy] at hlow
  linarith

theorem Near.div (hxy : Near u x y) (hzw : Near v z w) (hv : v < 1)
    (hw : 0 < w) : Near ((u + v) / (1 - v)) (x / z) (y / w) := by
  have hz := hzw.pos hv hw
  have hrest : 0 < 1 - v := sub_pos.mpr hv
  have hleast : w * (1 - v) ≤ z := by
    have := (abs_le.mp hzw).1
    rw [abs_of_pos hw] at this
    linarith
  have hcross : |x * w - y * z| ≤ |y| * w * (u + v) := by
    have hsplit : x * w - y * z = (x - y) * w + y * -(z - w) := by ring
    unfold Near at *
    rw [abs_of_pos hw] at hzw
    calc |x * w - y * z| ≤ |x - y| * w + |y| * |z - w| := by
          rw [hsplit]
          refine (abs_add_le _ _).trans_eq ?_
          rw [abs_mul, abs_mul, abs_neg, abs_of_pos hw]
      _ ≤ |y| * u * w + |y| * (w * v) := by gcongr
      _ = |y| * w * (u + v) := by ring
  have hnonneg : 0 ≤ |y| * w * (u + v) := (abs_nonneg _).trans hcross
  unfold Near
  rw [div_sub_div _ _ hz.ne' hw.ne', abs_div, abs_of_pos (mul_pos hz hw),
    mul_comm z y, abs_div, abs_of_pos hw]
  calc |x * w - y * z| / (z * w) ≤ |y| * w * (u + v) / (w * (1 - v) * w) := by
        gcongr
    _ = |y| / w * ((u + v) / (1 - v)) := by field_simp

end Nearness

theorem OnPlace.mul_natCast {t : ℤ} {q : ℚ} (h : OnPlace t q) (n : ℕ) :
    OnPlace t (q * n) := by
  obtain ⟨k, rfl⟩ := h
  exact ⟨k * n, by push_cast; ring⟩

/-- A result that is a multiple of the least number is near the exact one,
however small it is. -/
theorem RoundsTo.near_of_onPlace {q : ℚ} {z : Float32} (h : RoundsTo q z)
    (hq : OnPlace (-149) q) (hmost : |q| ≤ 2 ^ (127 : ℤ)) :
    z.isFinite = true ∧ Near (2 ^ (-24 : ℤ)) (exact z) q := by
  obtain ⟨hfinite, hexact⟩ :=
    h.finite_of_abs_le (onGrid_zpow (by norm_num)) (by norm_num) hmost
  exact ⟨hfinite, hexact ▸ hq.abs_nearest_sub_le⟩

end PitchFollower.Single
