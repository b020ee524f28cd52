import PitchFollower.Proofs.Single.Arithmetic

/-!
# The order of numbers

Comparisons of finite numbers compare their exact values, and a rounded result
keeps on its side of every number on the grid.
-/

namespace PitchFollower.Single

open Float.Model (UnpackedFloat)
open Float.Model.UnpackedFloat

/-! ## Finite numbers -/

/-- Of two canonical triples the one with the larger exponent is larger. -/
theorem mul_zpow_lt_of_exponent_lt {s s' : Sign} {m n : ℕ} {e f : ℤ}
    {hm : 0 < m} {hn : 0 < n} (hx : Canonical (.finite s m e hm))
    (hy : Canonical (.finite s' n f hn)) (h : e < f) :
    (m : ℚ) * 2 ^ e < n * 2 ^ f := by
  have hm' : (m : ℚ) < 2 ^ (24 : ℤ) := by exact_mod_cast hx.1
  have hn' : (2 : ℚ) ^ (23 : ℤ) ≤ n := by
    have hleast := hx.2.1
    exact_mod_cast hy.2.2.resolve_right (by omega)
  calc (m : ℚ) * 2 ^ e < 2 ^ (24 : ℤ) * 2 ^ e := by gcongr
    _ = 2 ^ (24 + e) := (zpow_add₀ (by norm_num) _ _).symm
    _ ≤ 2 ^ (23 + f) := zpow_le_zpow_right₀ (by norm_num) (by omega)
    _ = 2 ^ (23 : ℤ) * 2 ^ f := zpow_add₀ (by norm_num) _ _
    _ ≤ n * 2 ^ f := by gcongr

theorem compare_magnitudes {s s' : Sign} {m n : ℕ} {e f : ℤ} {hm : 0 < m}
    {hn : 0 < n} (hx : Canonical (.finite s m e hm))
    (hy : Canonical (.finite s' n f hn)) :
    (compare e f).then (compare m n) =
      compare ((m : ℚ) * 2 ^ e) (n * 2 ^ f) := by
  rcases lt_trichotomy e f with h | rfl | h
  · rw [compare_lt_iff_lt.mpr h,
      compare_lt_iff_lt.mpr (mul_zpow_lt_of_exponent_lt hx hy h)]
    rfl
  · have hpos := two_zpow_pos e
    rw [compare_eq_iff_eq.mpr rfl, Ordering.then]
    rcases lt_trichotomy m n with h | rfl | h
    · rw [compare_lt_iff_lt.mpr h, eq_comm, compare_lt_iff_lt]
      gcongr
    · rw [compare_eq_iff_eq.mpr rfl, compare_eq_iff_eq.mpr rfl]
    · rw [compare_gt_iff_gt.mpr h, eq_comm, compare_gt_iff_gt]
      gcongr
  · rw [compare_gt_iff_gt.mpr h,
      compare_gt_iff_gt.mpr (mul_zpow_lt_of_exponent_lt hy hx h)]
    rfl

theorem compare_finite
    {s s' : Sign} {m n : ℕ} {e f : ℤ} {hm : 0 < m} {hn : 0 < n}
    (hx : Canonical (.finite s m e hm)) (hy : Canonical (.finite s' n f hn)) :
    (UnpackedFloat.finite s m e hm).compare (.finite s' n f hn) =
      some (compare (signed s (m * 2 ^ e)) (signed s' (n * 2 ^ f))) := by
  have hm' : (0 : ℚ) < m * 2 ^ e := by positivity
  have hn' : (0 : ℚ) < n * 2 ^ f := by positivity
  cases s with
  | negative =>
    cases s' with
    | negative =>
      change some ((compare e f).then (compare m n)).swap =
        some (compare (-((m : ℚ) * 2 ^ e)) (-(n * 2 ^ f)))
      rw [compare_magnitudes hx hy]
      rcases lt_trichotomy ((m : ℚ) * 2 ^ e) (n * 2 ^ f) with h | h | h
      · rw [compare_lt_iff_lt.mpr h, compare_gt_iff_gt.mpr (neg_lt_neg h)]
        rfl
      · rw [compare_eq_iff_eq.mpr h, compare_eq_iff_eq.mpr (congrArg _ h)]
        rfl
      · rw [compare_gt_iff_gt.mpr h, compare_lt_iff_lt.mpr (neg_lt_neg h)]
        rfl
    | positive =>
      have hlt : -((m : ℚ) * 2 ^ e) < n * 2 ^ f := by linarith
      exact congrArg some (compare_lt_iff_lt.mpr hlt).symm
  | positive =>
    cases s' with
    | negative =>
      have hlt : -((n : ℚ) * 2 ^ f) < m * 2 ^ e := by linarith
      exact congrArg some (compare_gt_iff_gt.mpr hlt).symm
    | positive => exact congrArg some (compare_magnitudes hx hy)

theorem compare_exact
    {x y : Float32} (hx : x.isFinite = true) (hy : y.isFinite = true) :
    (unpacked x).compare (unpacked y) = some (compare (exact x) (exact y)) := by
  have hcx := canonical_unpacked x
  have hcy := canonical_unpacked y
  unfold exact
  rcases zero_or_finite_of_isFinite hx with ⟨s, hux⟩ | ⟨s, m, e, hm, hux⟩
  · rcases zero_or_finite_of_isFinite hy with ⟨s', huy⟩ | ⟨s', n, f, hn, huy⟩
    · rw [hux, huy, exactOf_zero, exactOf_zero, compare_eq_iff_eq.mpr rfl]
      rfl
    · have hpos : (0 : ℚ) < n * 2 ^ f := by positivity
      rw [hux, huy, exactOf_zero, exactOf_finite]
      cases s' with
      | negative =>
        exact congrArg some (compare_gt_iff_gt.mpr (neg_lt_zero.mpr hpos)).symm
      | positive => exact congrArg some (compare_lt_iff_lt.mpr hpos).symm
  · rcases zero_or_finite_of_isFinite hy with ⟨s', huy⟩ | ⟨s', n, f, hn, huy⟩
    · have hpos : (0 : ℚ) < m * 2 ^ e := by positivity
      rw [hux, huy, exactOf_zero, exactOf_finite]
      cases s with
      | negative =>
        exact congrArg some (compare_lt_iff_lt.mpr (neg_lt_zero.mpr hpos)).symm
      | positive => exact congrArg some (compare_gt_iff_gt.mpr hpos).symm
    · rw [hux, huy, exactOf_finite, exactOf_finite]
      exact compare_finite (hux ▸ hcx) (huy ▸ hcy)

theorem lt_iff_compare (x y : Float32) :
    x < y ↔ (unpacked x).compare (unpacked y) = some .lt := by
  change decide ((unpacked x).lt (unpacked y) = true) = true ↔ _
  rw [decide_eq_true_iff, UnpackedFloat.lt, beq_iff_eq]

theorem le_iff_compare (x y : Float32) :
    x ≤ y ↔ ((unpacked x).compare (unpacked y)).any (·.isLE) = true := by
  change decide ((unpacked x).le (unpacked y) = true) = true ↔ _
  rw [decide_eq_true_iff, UnpackedFloat.le]

theorem lt_iff
    {x y : Float32} (hx : x.isFinite = true) (hy : y.isFinite = true) :
    x < y ↔ exact x < exact y := by
  rw [lt_iff_compare, compare_exact hx hy, Option.some_inj, compare_lt_iff_lt]

theorem le_iff
    {x y : Float32} (hx : x.isFinite = true) (hy : y.isFinite = true) :
    x ≤ y ↔ exact x ≤ exact y := by
  rw [le_iff_compare, compare_exact hx hy, Option.any_some,
    ← Ordering.ne_gt_iff_isLE]
  exact compare_le_iff_le

theorem beq_iff
    {x y : Float32} (hx : x.isFinite = true) (hy : y.isFinite = true) :
    (x == y) = true ↔ exact x = exact y := by
  change ((unpacked x).compare (unpacked y) == some .eq) = true ↔ _
  rw [beq_iff_eq, compare_exact hx hy, Option.some_inj, compare_eq_iff_eq]

/-! ## Numbers that are not finite -/

section Infinite

variable {x y z : Float32}

theorem not_lt_negative_infinity (hz : unpacked z = .infinity .negative) :
    ¬ x < z := by
  rw [lt_iff_compare, hz]
  cases unpacked x with
  | infinity s => cases s <;> nofun
  | _ => nofun

theorem not_positive_infinity_lt (hz : unpacked z = .infinity .positive) :
    ¬ z < x := by
  rw [lt_iff_compare, hz]
  cases unpacked x with
  | infinity s => cases s <;> nofun
  | _ => nofun

theorem compare_notANumber (u : UnpackedFloat) :
    u.compare .notANumber = none := by
  cases u <;> rfl

theorem lt_positive_infinity (hx : x.isFinite = true)
    (hz : unpacked z = .infinity .positive) : x < z := by
  rw [lt_iff_compare, hz]
  rcases zero_or_finite_of_isFinite hx with ⟨s, hux⟩ | ⟨s, m, e, hm, hux⟩ <;>
    rw [hux] <;> rfl

/-- A boundary above a number is above every smaller one, also if it is
infinite. -/
theorem lt_of_exact_le_of_lt (hx : x.isFinite = true) (hy : y.isFinite = true)
    (hle : exact x ≤ exact y) (hlt : y < z) : x < z := by
  by_cases hz : z.isFinite = true
  · rw [lt_iff hx hz]
    exact hle.trans_lt ((lt_iff hy hz).mp hlt)
  · rw [isFinite_iff] at hz
    cases huz : unpacked z with
    | infinity s =>
      cases s with
      | positive => exact lt_positive_infinity hx huz
      | negative => exact absurd hlt (not_lt_negative_infinity huz)
    | notANumber =>
      rw [lt_iff_compare, huz, compare_notANumber] at hlt
      cases hlt
    | zero s => exact absurd (huz ▸ rfl) hz
    | finite s m e hm => exact absurd (huz ▸ rfl) hz

/-- Strictly between any two others there are only finite numbers. -/
theorem isFinite_of_between (hlow : x < y) (hhigh : y < z) :
    y.isFinite = true := by
  rw [isFinite_iff]
  cases hy : unpacked y with
  | zero s => rfl
  | finite s m e hm => rfl
  | notANumber =>
    rw [lt_iff_compare, hy, compare_notANumber] at hlow
    cases hlow
  | infinity s =>
    cases s with
    | positive => exact absurd hhigh (not_positive_infinity_lt hy)
    | negative => exact absurd hlow (not_lt_negative_infinity hy)

/-- What lies between two finite numbers is finite. -/
theorem isFinite_of_le_of_le (hx : x.isFinite = true) (hz : z.isFinite = true)
    (hlow : x ≤ y) (hhigh : y ≤ z) : y.isFinite = true := by
  rw [le_iff_compare] at hlow hhigh
  rw [isFinite_iff]
  cases hy : unpacked y with
  | zero s => rfl
  | finite s m e hm => rfl
  | notANumber =>
    rw [hy, compare_notANumber] at hlow
    cases hlow
  | infinity s =>
    cases s with
    | positive =>
      rcases zero_or_finite_of_isFinite hz with ⟨t, hz⟩ | ⟨t, m, e, hm, hz⟩ <;>
        rw [hy, hz] at hhigh <;> cases hhigh
    | negative =>
      rcases zero_or_finite_of_isFinite hx with ⟨t, hx⟩ | ⟨t, m, e, hm, hx⟩ <;>
        rw [hx, hy] at hlow <;> cases hlow

end Infinite

/-! ## Constants -/

theorem exact_zero : exact 0 = 0 :=
  rfl

theorem exact_one : exact 1 = 1 := by
  have h : unpacked 1 = .finite .positive (2 ^ 23) (-23) (by norm_num) := rfl
  rw [exact, h, exactOf_finite, signed]
  norm_num

section Signs

variable {x : Float32} (hx : x.isFinite = true)

include hx

theorem neg_iff : x < 0 ↔ exact x < 0 := by
  rw [lt_iff hx rfl, exact_zero]

theorem pos_iff : 0 < x ↔ 0 < exact x := by
  rw [lt_iff rfl hx, exact_zero]

theorem beq_zero_iff : (x == 0) = true ↔ exact x = 0 := by
  rw [beq_iff hx rfl, exact_zero]

theorem beq_zero_eq_false_iff : (x == 0) = false ↔ exact x ≠ 0 := by
  rw [← Bool.not_eq_true, beq_zero_iff hx]

end Signs

theorem onGrid_zpow {e : ℤ} (he : -149 ≤ e) : OnGrid (2 ^ e) :=
  ⟨1, e, by norm_num, he, by norm_num⟩

theorem onGrid_one : OnGrid 1 :=
  onGrid_zpow (e := 0) (by norm_num)

theorem onGrid_natCast {n : ℕ} (hn : n < 2 ^ 24) : OnGrid n :=
  ⟨n, 0, by rw [Int.abs_natCast]; exact_mod_cast hn, by norm_num, by norm_num⟩

theorem OnGrid.mul_two_pow {g : ℚ} (h : OnGrid g) (k : ℕ) :
    OnGrid (g * 2 ^ k) := by
  obtain ⟨m, e, hm, he, rfl⟩ := h
  refine ⟨m, e + k, hm, by omega, ?_⟩
  rw [mul_assoc, zpow_add₀ (by norm_num), zpow_natCast]

theorem OnGrid.two_mul {g : ℚ} (h : OnGrid g) : OnGrid (2 * g) := by
  rw [mul_comm, ← pow_one (2 : ℚ)]
  exact h.mul_two_pow 1

theorem onGrid_natCast_mul_zpow {m : ℕ} {t : ℤ} (hm : m ≤ 2 ^ 24)
    (ht : -149 ≤ t) : OnGrid (m * 2 ^ t) := by
  rcases hm.lt_or_eq with hlt | rfl
  · exact ⟨m, t, by rw [Int.abs_natCast]; exact_mod_cast hlt, ht,
      by push_cast; rfl⟩
  · have htop : OnGrid (2 ^ (24 + t)) := onGrid_zpow (by omega)
    rw [zpow_add₀ (by norm_num)] at htop
    exact_mod_cast htop

/-- One more place than a mantissa can count is a tie, which goes to the even
number below. -/
theorem nearest_most_succ_mul_zpow {t : ℤ} (ht : -149 ≤ t) :
    nearest ((2 ^ 24 + 1) * 2 ^ t) = 2 ^ 24 * 2 ^ t := by
  have hlog : Int.log 2 (2 ^ 24 + 1 : ℚ) = 24 := by
    have hcast : (2 ^ 24 + 1 : ℚ) = ((16777217 : ℕ) : ℚ) := by norm_num
    rw [hcast, Int.log_natCast,
      Nat.log_eq_of_pow_le_of_lt_pow (m := 24) (by norm_num) (by norm_num)]
    rfl
  have hplace : lastPlace ((2 ^ 24 + 1) * 2 ^ t) = t + 1 := by
    have hpos : (0 : ℚ) < (2 ^ 24 + 1) * 2 ^ t :=
      mul_pos (by norm_num) (two_zpow_pos t)
    rw [lastPlace, abs_of_pos hpos, log_mul_zpow (by norm_num), hlog]
    omega
  have hquot : ((2 ^ 24 + 1) * 2 ^ t : ℚ) / 2 ^ (t + 1) = 16777217 / 2 := by
    rw [zpow_add_one₀ (by norm_num), mul_comm ((2 : ℚ) ^ t),
      mul_div_mul_right _ _ (two_zpow_pos t).ne']
    norm_num
  have hfloor : ⌊(16777217 / 2 : ℚ)⌋ = 8388608 := by
    rw [Int.floor_eq_iff]
    norm_num
  rw [nearest, hplace, hquot, zpow_add_one₀ (by norm_num)]
  norm_num [nearestInt, hfloor]
  ring

/-! ## Rounded results -/

theorem pos_of_infinity {z : Float32} (hz : unpacked z = .infinity .positive) :
    0 < z := by
  rw [lt_iff_compare, hz]
  rfl

/-- A result that is at least some positive number is positive, also if it is
out of range. -/
theorem RoundsTo.pos {q g : ℚ} {z : Float32} (h : RoundsTo q z) (hg : OnGrid g)
    (hpos : 0 < g) (hq : g ≤ q) : 0 < z := by
  unfold RoundsTo at h
  split_ifs at h with hrange hneg
  · obtain ⟨hfinite, hexact⟩ := h
    rw [pos_iff hfinite, hexact]
    exact hpos.trans_le (hg.le_nearest hq)
  · linarith
  · exact pos_of_infinity h

end PitchFollower.Single
