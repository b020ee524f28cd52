import PitchFollower.Proofs.Single.Conversions
import PitchFollower.Proofs.Single.Places

/-!
# The approximate cosine

The cosine of an angle of moderate size is at most one, in spite of all
rounding.  Its three steps are bounded one after the other: the angle is brought
into half a turn around zero, give or take some last places, the parabola
through the half turn is at most one, and the correction only makes the value
smaller.
-/

namespace PitchFollower.Single.Approximate

/-! ## The steps -/

/-- An angle, in turns, brought into half a turn around zero. -/
def reduced (t : Float32) : Float32 :=
  t - (0.25 + floor (t + 0.25))

/-- The parabola over a half turn. -/
def parabola (z : Float32) : Float32 :=
  z * (16 * (z.abs - 0.5))

/-- The value after the correction step. -/
def corrected (y : Float32) : Float32 :=
  y + 0.225 * y * (y.abs - 1)

theorem cos_eq (x : Float32) :
    cos x = corrected (parabola (reduced (x * (reciprocalPi / 2)))) :=
  rfl

theorem exact_quarter : exact 0.25 = 1 / 4 := by decide +kernel

theorem exact_half : exact 0.5 = 1 / 2 := by decide +kernel

theorem exact_sixteen : exact 16 = 16 := by decide +kernel

/-! ## Bounds -/

section Bounds

variable {t y z : Float32}

theorem onGrid_quarter_add {i : ℤ} (hi : |i| ≤ 3) : OnGrid (1 / 4 + i) := by
  refine ⟨4 * i + 1, -2, ?_, by norm_num, ?_⟩
  · rw [abs_le] at hi
    rw [abs_lt]
    omega
  · push_cast
    ring

/-- The reduced angle is half a turn at most, and a little more for the
rounding.  What is taken away from the angle is a number, so that only the
difference is rounded. -/
theorem within_reduced (ht : Within 2 t) : Within (9 / 16) (reduced t) := by
  have hquarter : Within (1 / 4) 0.25 := ⟨rfl, by rw [exact_quarter]; norm_num⟩
  have hfour : OnGrid (2 ^ (2 : ℤ)) := onGrid_zpow (by norm_num)
  have hsum : Within (2 ^ (2 : ℤ)) (t + 0.25) :=
    ht.add hquarter hfour (by norm_num) (by norm_num)
  have hexact :=
    (add_roundsTo ht.isFinite hquarter.isFinite).exact_eq hsum.isFinite
  have habs := abs_le.mp ht.abs_le
  have hmost : |exact t + exact 0.25| ≤ 2 ^ (2 : ℤ) := by
    rw [exact_quarter, abs_le]
    constructor <;> linarith
  have herror := abs_nearest_sub_le_of_abs_le (t := -22) (by norm_num) hmost
  rw [← hexact, exact_quarter, abs_le] at herror
  norm_num at herror
  have hlow := Int.floor_le (exact (t + 0.25))
  have hhigh := Int.lt_floor_add_one (exact (t + 0.25))
  have hrange : |⌊exact (t + 0.25)⌋| ≤ 3 := by
    rw [abs_le]
    constructor
    · exact Int.le_floor.mpr (by push_cast; linarith)
    · exact Int.lt_add_one_iff.mp (Int.floor_lt.mpr (by push_cast; linarith))
  obtain ⟨hfloor, hfloorexact⟩ :=
    floor_finite hsum.isFinite (hsum.abs_le.trans_lt (by norm_num))
  have hfloorwithin : Within 3 (floor (t + 0.25)) := by
    refine ⟨hfloor, ?_⟩
    rw [hfloorexact]
    exact_mod_cast hrange
  have haway : Within (2 ^ (2 : ℤ)) (0.25 + floor (t + 0.25)) :=
    hquarter.add hfloorwithin hfour (by norm_num) (by norm_num)
  have hawayexact :=
    (add_roundsTo hquarter.isFinite hfloor).exact_eq haway.isFinite
  rw [exact_quarter, hfloorexact,
    nearest_of_onGrid (onGrid_quarter_add hrange)] at hawayexact
  apply (sub_roundsTo ht.isFinite haway.isFinite).within
  · exact ⟨9, -4, by norm_num, by norm_num, by norm_num⟩
  · norm_num
  · rw [hawayexact, abs_le]
    constructor <;> linarith

theorem exact_abs_sub_half (hz : Within (9 / 16) z) :
    (z.abs - 0.5).isFinite = true ∧
      exact (z.abs - 0.5) = nearest (|exact z| - 1 / 2) := by
  have hsub := sub_roundsTo ((isFinite_abs z).trans hz.isFinite)
    (show (0.5 : Float32).isFinite = true from rfl)
  rw [exact_abs, exact_half] at hsub
  apply hsub.finite_of_abs_le onGrid_one (by norm_num)
  rw [abs_le]
  constructor <;> linarith [abs_nonneg (exact z), hz.abs_le]

theorem mul_abs_nearest_le {a e : ℚ} (hnonneg : 0 ≤ a) (ha : a ≤ 1 / 2)
    (herror : |nearest (a - 1 / 2) - (a - 1 / 2)| ≤ e)
    (he : 16 * a * e ≤ 2 ^ (-24 : ℤ)) :
    16 * a * |nearest (a - 1 / 2)| ≤ 1 + 2 ^ (-24 : ℤ) := by
  have hnearest : |nearest (a - 1 / 2)| ≤ 1 / 2 - a + e := by
    rw [abs_le] at herror ⊢
    constructor <;> linarith
  calc 16 * a * |nearest (a - 1 / 2)|
      ≤ 16 * a * (1 / 2 - a + e) :=
        mul_le_mul_of_nonneg_left hnearest (by linarith)
    _ = 1 - (4 * a - 1) ^ 2 + 16 * a * e := by ring
    _ ≤ 1 + 2 ^ (-24 : ℤ) := by linarith [sq_nonneg (4 * a - 1)]

/-- The factor of the parabola is off by so little that the product exceeds one
by half a last place at most. -/
theorem mul_abs_nearest_sub_half_le {a : ℚ} (hnonneg : 0 ≤ a)
    (ha : a ≤ 9 / 16) : 16 * a * |nearest (a - 1 / 2)| ≤ 1 + 2 ^ (-24 : ℤ) := by
  rcases le_or_gt a (1 / 4) with hquarter | hquarter
  · have herror :=
      abs_nearest_sub_le_of_abs_le (q := a - 1 / 2) (t := -25) (by norm_num)
      (by rw [abs_le]; constructor <;> norm_num <;> linarith)
    exact mul_abs_nearest_le hnonneg (by linarith) herror
      (by norm_num; linarith)
  · rcases le_or_gt a (1 / 2) with hhalf | hhalf
    · have herror :=
        abs_nearest_sub_le_of_abs_le (q := a - 1 / 2) (t := -26) (by norm_num)
        (by rw [abs_le]; constructor <;> norm_num <;> linarith)
      exact mul_abs_nearest_le hnonneg hhalf herror (by norm_num; linarith)
    · have hnearest : |nearest (a - 1 / 2)| ≤ nearest (2 ^ (-4 : ℤ)) := by
        apply abs_nearest_le_nearest
        rw [abs_le]
        constructor <;> norm_num <;> linarith
      rw [nearest_of_onGrid (onGrid_zpow (by norm_num))] at hnearest
      have hproduct : 16 * a * |nearest (a - 1 / 2)| ≤ 9 * 2 ^ (-4 : ℤ) :=
        mul_le_mul (by linarith) hnearest (abs_nonneg _) (by norm_num)
      norm_num at hproduct ⊢
      linarith

/-- The parabola stays within one.  Sixteen times a number is a number again, so
the last product is the only one that is rounded. -/
theorem within_parabola (hz : Within (9 / 16) z) : Within 1 (parabola z) := by
  obtain ⟨hfinite, hexact⟩ := exact_abs_sub_half hz
  have hgrid : OnGrid (16 * exact (z.abs - 0.5)) := by
    have hpow := (onGrid_exact (z.abs - 0.5)).mul_two_pow 4
    rw [mul_comm] at hpow
    norm_num at hpow ⊢
    exact hpow
  have hfactor :=
    mul_roundsTo (show (16 : Float32).isFinite = true from rfl) hfinite
  rw [exact_sixteen] at hfactor
  have hmost : |nearest (|exact z| - 1 / 2)| ≤ nearest 1 := by
    apply abs_nearest_le_nearest
    rw [abs_le]
    constructor <;> linarith [abs_nonneg (exact z), hz.abs_le]
  rw [nearest_of_onGrid onGrid_one, ← hexact] at hmost
  obtain ⟨hfactorfinite, hfactorexact⟩ := hfactor.finite_of_abs_le
    (onGrid_zpow (e := 4) (by norm_num)) (by norm_num)
      (by rw [abs_mul]; norm_num; linarith)
  rw [nearest_of_onGrid hgrid, hexact] at hfactorexact
  have hone : nearest ((2 ^ 24 + 1) * 2 ^ (-24 : ℤ)) = 1 := by
    rw [nearest_most_succ_mul_zpow (by norm_num)]
    norm_num
  have hproduct := mul_roundsTo hz.isFinite hfactorfinite
  rw [hfactorexact] at hproduct
  rw [← hone]
  apply hproduct.within_nearest
  · have hbound := mul_abs_nearest_sub_half_le (abs_nonneg (exact z)) hz.abs_le
    rw [abs_mul, abs_mul]
    norm_num at hbound ⊢
    linarith
  · rw [hone]
    norm_num

theorem abs_add_correction_le {v c b : ℚ} (hv : OnGrid |v|) (hc : 0 ≤ c)
    (hcone : c ≤ 1) (hb : -1 ≤ b) (hbnonpos : b ≤ 0) :
    |v + nearest (nearest (c * v) * b)| ≤ |v| := by
  have hcorrection : ∀ w, OnGrid w → 0 ≤ w →
      |w + nearest (nearest (c * w) * b)| ≤ w := by
    intro w hw hnonneg
    have hpart := nearest_nonneg (mul_nonneg hc hnonneg)
    have hpartle : nearest (c * w) ≤ w :=
      hw.nearest_le (mul_le_of_le_one_left hnonneg hcone)
    have hmost : nearest (nearest (c * w) * -b) ≤ w := by
      apply hw.nearest_le
      exact (mul_le_of_le_one_right hpart (by linarith)).trans hpartle
    have hleast := nearest_nonneg (mul_nonneg hpart (neg_nonneg.mpr hbnonpos))
    rw [mul_neg, nearest_neg] at hmost hleast
    rw [abs_le]
    constructor <;> linarith
  rcases abs_cases v with ⟨habs, hsign⟩ | ⟨habs, hsign⟩
  · rw [habs] at hv ⊢
    exact hcorrection v hv hsign
  · rw [habs] at hv ⊢
    have hneg := hcorrection (-v) hv (by linarith)
    rwa [mul_neg, nearest_neg, neg_mul, nearest_neg, ← neg_add, abs_neg] at hneg

/-- The correction of a value points towards zero and is not larger than it. -/
theorem within_corrected (hy : Within 1 y) : Within 1 (corrected y) := by
  have hone : (1 : ℚ) < 2 ^ 128 := by norm_num
  have hgrid : OnGrid |exact y| := exact_abs y ▸ onGrid_exact y.abs
  have hscale : 0 ≤ exact 0.225 ∧ exact 0.225 ≤ 1 := by decide +kernel
  have hscaled : Within 1 (0.225 * y) :=
    Within.mul ⟨rfl,
      abs_le.mpr ⟨by linarith, hscale.2⟩⟩ hy onGrid_one hone (by norm_num)
  have hscaledexact := (mul_roundsTo rfl hy.isFinite).exact_eq hscaled.isFinite
  have hrest := sub_roundsTo ((isFinite_abs y).trans hy.isFinite)
    (show (1 : Float32).isFinite = true from rfl)
  rw [exact_abs, exact_one] at hrest
  have hnonpos : |exact y| - 1 ≤ 0 := sub_nonpos.mpr hy.abs_le
  have hrestwithin : Within 1 (y.abs - 1) := by
    apply hrest.within onGrid_one hone
    rw [abs_of_nonpos hnonpos]
    linarith [abs_nonneg (exact y)]
  have hrestnonpos : exact (y.abs - 1) ≤ 0 := by
    rw [hrest.exact_eq hrestwithin.isFinite, ← nearest_zero]
    exact nearest_mono hnonpos
  have hcorrection : Within 1 (0.225 * y * (y.abs - 1)) :=
    hscaled.mul hrestwithin onGrid_one hone (by norm_num)
  have hcorrectionexact :=
    (mul_roundsTo hscaled.isFinite hrestwithin.isFinite).exact_eq
      hcorrection.isFinite
  have hsum := add_roundsTo hy.isFinite hcorrection.isFinite
  rw [hcorrectionexact, hscaledexact] at hsum
  apply hsum.within onGrid_one hone
  exact (abs_add_correction_le hgrid hscale.1 hscale.2
    (abs_le.mp hrestwithin.abs_le).1
    hrestnonpos).trans hy.abs_le

end Bounds

theorem within_cos {x : Float32} (hx : Within 12 x) : Within 1 (cos x) := by
  have hscale : Within (1 / 6) (reciprocalPi / 2) :=
    ⟨by decide +kernel, by decide +kernel⟩
  rw [cos_eq]
  apply within_corrected
  apply within_parabola
  apply within_reduced
  exact hx.mul hscale (onGrid_zpow (e := 1) (by norm_num)) (by norm_num)
    (by norm_num)

end PitchFollower.Single.Approximate
