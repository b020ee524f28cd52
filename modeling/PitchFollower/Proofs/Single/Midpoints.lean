import PitchFollower.Proofs.Single.Places

/-!
# Midpoints

Between two neighbouring numbers there is a gap, and rounding decides for one of
the two at the middle of the gap.  So a number that is rounded differently from
another one lies on the other side of a midpoint, and a midpoint is no further
from either than they are from each other.
-/

namespace PitchFollower.Single

open Float.Model (UnpackedFloat)

/-! ## Gaps -/

/-- The numbers `n * 2 ^ s` and `(n + 1) * 2 ^ s` are neighbours: all numbers in
between have the last place `s`. -/
structure IsGap (n : ℕ) (s : ℤ) : Prop where
  small : n < 2 ^ 24
  least : -149 ≤ s
  full : 2 ^ 23 ≤ n ∨ s = -149

section Gap

variable {n : ℕ} {s : ℤ} {y : ℚ}

theorem IsGap.lastPlace_eq (h : IsGap n s) (hpos : 0 < y) (hlow : n * 2 ^ s ≤ y)
    (hhigh : y < (n + 1) * 2 ^ s) : lastPlace y = s := by
  have hspos := two_zpow_pos s
  have hmost : y < 2 ^ (s + 24) := by
    have hn : (n : ℚ) + 1 ≤ 2 ^ (24 : ℤ) := by exact_mod_cast h.small
    rw [add_comm, zpow_add₀ (by norm_num)]
    exact hhigh.trans_le (mul_le_mul_of_nonneg_right hn hspos.le)
  have hlog :=
    (Int.lt_zpow_iff_log_lt (b := 2) (by norm_num) hpos).mp
      (by exact_mod_cast hmost)
  have hleast := h.least
  rw [lastPlace, abs_of_pos hpos]
  rcases h.full with hfull | rfl
  · have hn : (2 : ℚ) ^ (23 : ℤ) ≤ n := by exact_mod_cast hfull
    have hle : (2 : ℚ) ^ (s + 23) ≤ y := by
      rw [add_comm, zpow_add₀ (by norm_num)]
      exact (mul_le_mul_of_nonneg_right hn hspos.le).trans hlow
    have :=
      (Int.zpow_le_iff_le_log (b := 2) (by norm_num) hpos).mp
        (by exact_mod_cast hle)
    omega
  · omega

theorem IsGap.onGrid_low (h : IsGap n s) : OnGrid (n * 2 ^ s) :=
  onGrid_natCast_mul_zpow h.small.le h.least

theorem IsGap.onGrid_high (h : IsGap n s) : OnGrid ((n + 1) * 2 ^ s) := by
  exact_mod_cast onGrid_natCast_mul_zpow (m := n + 1) h.small h.least

/-- The floor of a number in a gap, in units of the last place. -/
theorem IsGap.floor_eq (hlow : n * 2 ^ s ≤ y) (hhigh : y < (n + 1) * 2 ^ s) :
    ⌊y / 2 ^ s⌋ = n := by
  rw [Int.floor_eq_iff, le_div_iff₀ (two_zpow_pos s),
    div_lt_iff₀ (two_zpow_pos s)]
  exact ⟨by exact_mod_cast hlow, by exact_mod_cast hhigh⟩

theorem IsGap.nearest_eq_low (h : IsGap n s) (hlow : n * 2 ^ s ≤ y)
    (hmid : y < (n + 1 / 2) * 2 ^ s) : nearest y = n * 2 ^ s := by
  have hspos := two_zpow_pos s
  rcases (mul_nonneg (Nat.cast_nonneg n) hspos.le).trans hlow
    |>.eq_or_lt with rfl | hpos
  · have hzero : (n : ℚ) * 2 ^ s = 0 := le_antisymm hlow (by positivity)
    rw [nearest_zero, hzero]
  · have hhigh : y < (n + 1) * 2 ^ s := hmid.trans (by gcongr; norm_num)
    have hfraction : y / 2 ^ s - n < 1 / 2 := by
      rw [sub_lt_iff_lt_add, div_lt_iff₀ hspos, add_comm]
      exact hmid
    rw [nearest, h.lastPlace_eq hpos hlow hhigh, nearestInt,
      IsGap.floor_eq hlow hhigh, Int.cast_natCast, if_pos hfraction,
      Int.cast_natCast]

theorem IsGap.nearest_eq_high (h : IsGap n s) (hmid : (n + 1 / 2) * 2 ^ s < y)
    (hhigh : y ≤ (n + 1) * 2 ^ s) : nearest y = (n + 1) * 2 ^ s := by
  have hspos := two_zpow_pos s
  rcases hhigh.eq_or_lt with rfl | hlt
  · exact nearest_of_onGrid h.onGrid_high
  · have hlow : n * 2 ^ s ≤ y := le_trans (by gcongr; norm_num) hmid.le
    have hpos : 0 < y := lt_of_le_of_lt (by positivity) hmid
    have hfraction : 1 / 2 < y / 2 ^ s - n := by
      rw [lt_sub_iff_add_lt, lt_div_iff₀ hspos, add_comm]
      exact hmid
    rw [nearest, h.lastPlace_eq hpos hlow hlt, nearestInt,
      IsGap.floor_eq hlow hlt, Int.cast_natCast, if_neg hfraction.not_gt,
      if_pos hfraction]
    push_cast
    rfl

theorem IsGap.nearest_le_low (h : IsGap n s) (hmid : y < (n + 1 / 2) * 2 ^ s) :
    nearest y ≤ n * 2 ^ s := by
  rcases le_total y (n * 2 ^ s) with hle | hle
  · exact h.onGrid_low.nearest_le hle
  · exact (h.nearest_eq_low hle hmid).le

theorem IsGap.high_le_nearest (h : IsGap n s) (hmid : (n + 1 / 2) * 2 ^ s < y) :
    (n + 1) * 2 ^ s ≤ nearest y := by
  rcases le_total y ((n + 1) * 2 ^ s) with hle | hle
  · exact (h.nearest_eq_high hmid hle).ge
  · exact h.onGrid_high.le_nearest hle

theorem IsGap.le_mid (h : IsGap n s) (hy : nearest y < (n + 1) * 2 ^ s) :
    y ≤ (n + 1 / 2) * 2 ^ s := by
  by_contra! hbeyond
  exact (h.high_le_nearest hbeyond).not_gt hy

theorem IsGap.mid_le (h : IsGap n s) (hy : n * 2 ^ s < nearest y) :
    (n + 1 / 2) * 2 ^ s ≤ y := by
  by_contra! hbeyond
  exact (h.nearest_le_low hbeyond).not_gt hy

/-- No number lies within a gap. -/
theorem IsGap.le_low (h : IsGap n s) {g : ℚ} (hg : OnGrid g)
    (hlt : g < (n + 1) * 2 ^ s) : g ≤ n * 2 ^ s := by
  by_contra! hlow
  have hspos := two_zpow_pos s
  obtain ⟨i, hi⟩ := hg.onPlace
  rw [h.lastPlace_eq (lt_of_le_of_lt (by positivity) hlow) hlow.le hlt] at hi
  subst hi
  have hnext : (n : ℤ) < i := by
    exact_mod_cast lt_of_mul_lt_mul_right hlow hspos.le
  have hlast : i < (n : ℤ) + 1 := by
    exact_mod_cast lt_of_mul_lt_mul_right hlt hspos.le
  omega

theorem exists_gap_around (hpos : 0 < y) :
    ∃ n s, IsGap n s ∧ n * 2 ^ s ≤ y ∧ y < (n + 1) * 2 ^ s := by
  have hhigh := abs_lt_zpow_lastPlace y
  have hlow := zpow_lastPlace_le_abs hpos.ne'
  have hleast : -149 ≤ lastPlace y := le_max_right _ _
  generalize lastPlace y = s at *
  have hspos := two_zpow_pos s
  rw [abs_of_pos hpos, add_comm, zpow_add₀ (by norm_num),
    ← div_lt_iff₀ hspos] at hhigh
  rw [abs_of_pos hpos, add_comm, zpow_add₀ (by norm_num),
    ← le_div_iff₀ hspos] at hlow
  have hquot : 0 ≤ y / 2 ^ s := (div_pos hpos hspos).le
  refine ⟨⌊y / 2 ^ s⌋₊, s, ⟨?_, hleast, ?_⟩, ?_, ?_⟩
  · rw [Nat.floor_lt hquot]
    exact_mod_cast hhigh
  · rcases hleast.lt_or_eq with hplace | hplace
    · exact .inl (Nat.le_floor (by exact_mod_cast hlow hplace))
    · exact .inr hplace.symm
  · rw [← le_div_iff₀ hspos]
    exact Nat.floor_le hquot
  · rw [← div_lt_iff₀ hspos]
    exact Nat.lt_floor_add_one _

/-- Rounding moves nothing up by more than it lies above a number. -/
theorem OnGrid.nearest_sub_le {g : ℚ} (hg : OnGrid g) (hnonneg : 0 ≤ y)
    (hle : g ≤ y) : nearest y - y ≤ y - g := by
  rcases hnonneg.eq_or_lt with rfl | hpos
  · rw [nearest_zero, sub_zero]
    exact sub_nonneg.mpr hle
  obtain ⟨n, s, hgap, hlow, hhigh⟩ := exists_gap_around hpos
  have hbelow := hgap.le_low hg (hle.trans_lt hhigh)
  rcases lt_or_ge y ((n + 1 / 2) * 2 ^ s) with hmid | hmid
  · have := hgap.nearest_eq_low hlow hmid
    linarith
  · have hnearest := hgap.onGrid_high.nearest_le hhigh.le
    have hmiddle :
        ((n : ℚ) + 1 / 2) * 2 ^ s + (n + 1 / 2) * 2 ^ s =
          n * 2 ^ s + (n + 1) * 2 ^ s := by
      ring
    linarith

/-- The middle of a gap has one place more than the numbers beside it. -/
theorem mid_eq (n : ℕ) (s : ℤ) :
    ((2 * n + 1 : ℕ) : ℚ) * 2 ^ (s - 1) = (n + 1 / 2) * 2 ^ s := by
  rw [zpow_sub_one₀ (by norm_num)]
  push_cast
  ring

theorem half_gap_eq (s : ℤ) : (2 : ℚ) ^ (s - 1) = 2 ^ s / 2 :=
  zpow_sub_one₀ (by norm_num) s

end Gap

/-! ## The gaps beside a number -/

section Beside

variable {x : ℚ}

theorem OnGrid.exists_gap_above (h : OnGrid x) (hpos : 0 < x) :
    ∃ n s, IsGap n s ∧ x = n * 2 ^ s := by
  obtain ⟨i, hi⟩ := h.onPlace
  have hhigh := abs_lt_zpow_lastPlace x
  have hlow := zpow_lastPlace_le_abs hpos.ne'
  have hleast : -149 ≤ lastPlace x := le_max_right _ _
  generalize lastPlace x = s at *
  have hspos := two_zpow_pos s
  rw [abs_of_pos hpos, add_comm, zpow_add₀ (by norm_num)] at hhigh hlow
  subst hi
  have hipos : (0 : ℚ) < i := pos_of_mul_pos_left hpos hspos.le
  obtain ⟨n, rfl⟩ :=
    Int.eq_ofNat_of_zero_le (show 0 ≤ i by exact_mod_cast hipos.le)
  refine ⟨n, s, ⟨?_, hleast, ?_⟩, by push_cast; rfl⟩
  · exact_mod_cast lt_of_mul_lt_mul_right hhigh hspos.le
  · rcases hleast.lt_or_eq with hplace | hplace
    · exact .inl (by exact_mod_cast le_of_mul_le_mul_right (hlow hplace) hspos)
    · exact .inr hplace.symm

/-- A number has a gap above it and a gap below it.  Below a power of two the
gap is only half as wide as above it. -/
theorem OnGrid.exists_gaps (h : OnGrid x) (hpos : 0 < x) :
    ∃ n s k t, IsGap n s ∧ x = n * 2 ^ s ∧ IsGap k t ∧ x = (k + 1) * 2 ^ t ∧
      t ≤ s := by
  obtain ⟨n, s, hgap, rfl⟩ := h.exists_gap_above hpos
  have hn : 0 < n := by
    have := pos_of_mul_pos_left hpos (two_zpow_pos s).le
    exact_mod_cast this
  have hsmall := hgap.small
  have hleast := hgap.least
  have hfull := hgap.full
  by_cases hpower : n = 2 ^ 23 ∧ s ≠ -149
  · obtain ⟨rfl, hs⟩ := hpower
    refine ⟨_, _, 2 ^ 24 - 1, s - 1, hgap, rfl,
      ⟨by norm_num, by omega, by norm_num⟩, ?_, by omega⟩
    rw [zpow_sub_one₀ (by norm_num)]
    push_cast
    ring
  · refine ⟨_, _, n - 1, s, hgap, rfl, ⟨by omega, hleast, by omega⟩, ?_, le_rfl⟩
    rw [Nat.cast_pred hn, sub_add_cancel]

/-- What comes close enough to a number is rounded to it. -/
theorem OnGrid.exists_reach (h : OnGrid x) (hpos : 0 < x) :
    ∃ s : ℤ, -149 ≤ s ∧ x ≤ 2 ^ 24 * 2 ^ s ∧ ∀ y, |y - x| < 2 ^ s / 2 →
      nearest y = x := by
  obtain ⟨n, s, k, t, habove, hx, hbelow, hx', hts⟩ := h.exists_gaps hpos
  refine ⟨t, hbelow.least, ?_, fun y hy => ?_⟩
  · have hk : (k : ℚ) + 1 ≤ 2 ^ 24 := by exact_mod_cast hbelow.small
    rw [hx']
    exact mul_le_mul_of_nonneg_right hk (two_zpow_pos t).le
  · rw [abs_lt] at hy
    rcases le_total x y with hle | hle
    · have hwide : (2 : ℚ) ^ t ≤ 2 ^ s := zpow_le_zpow_right₀ (by norm_num) hts
      have hmid : ((n : ℚ) + 1 / 2) * 2 ^ s = x + 2 ^ s / 2 := by rw [hx]; ring
      rw [hx]
      exact habove.nearest_eq_low (hx ▸ hle) (by rw [hmid]; linarith)
    · have hmid : ((k : ℚ) + 1 / 2) * 2 ^ t = x - 2 ^ t / 2 := by rw [hx']; ring
      rw [hx']
      exact hbelow.nearest_eq_high (by rw [hmid]; linarith) (hx' ▸ hle)

/-- A summand that is not too faint beside a number moves it to another one.
Beside the smallest numbers none is too faint, as no number lies between zero
and the least one. -/
theorem OnGrid.lt_nearest_add {p : ℚ} (h : OnGrid x) (hpos : 0 < x)
    (hp : OnGrid p) (hppos : 0 < p) (hfaint : x < 2 ^ 24 * p) :
    x < nearest (x + p) := by
  obtain ⟨n, s, hgap, rfl⟩ := h.exists_gap_above hpos
  have hspos := two_zpow_pos s
  have hhalf : 2 ^ s / 2 < p := by
    rcases hgap.full with hfull | rfl
    · have hn : (2 : ℚ) ^ 23 ≤ n := by exact_mod_cast hfull
      have hle := mul_le_mul_of_nonneg_right hn hspos.le
      linarith
    · have hleast : IsGap 0 (-149) := ⟨by norm_num, le_rfl, .inr rfl⟩
      by_contra! hsmall
      have hbefore : p < ((0 : ℕ) + 1) * 2 ^ (-149 : ℤ) := by
        rw [Nat.cast_zero, zero_add, one_mul]
        exact hsmall.trans_lt (half_lt_self hspos)
      have hlow := hleast.le_low hp hbefore
      rw [Nat.cast_zero, zero_mul] at hlow
      exact hlow.not_gt hppos
  calc (n : ℚ) * 2 ^ s < (n + 1) * 2 ^ s := by linarith
    _ ≤ nearest (n * 2 ^ s + p) := hgap.high_le_nearest (by linarith)

/-- A summand that is faint enough beside a number is lost. -/
theorem OnGrid.nearest_add_of_faint {p : ℚ} (h : OnGrid x) (hpos : 0 < x)
    (hp : 0 ≤ p) (hfaint : 2 ^ 25 * p ≤ x) : nearest (x + p) = x := by
  obtain ⟨n, s, hgap, rfl⟩ := h.exists_gap_above hpos
  have hn : (n : ℚ) < 2 ^ 24 := by exact_mod_cast hgap.small
  have hlt := mul_lt_mul_of_pos_right hn (two_zpow_pos s)
  exact hgap.nearest_eq_low (by linarith) (by linarith)

/-- The quotient of a number by a larger one is not rounded to one. -/
theorem OnGrid.nearest_div_lt_one {y : ℚ} (hx : OnGrid x) (hpos : 0 < x)
    (hy : OnGrid y) (hlt : x < y) : nearest (x / y) < 1 := by
  obtain ⟨n, s, hgap, rfl⟩ := hx.exists_gap_above hpos
  have hspos := two_zpow_pos s
  have hnext : (n + 1) * 2 ^ s ≤ y := by
    by_contra! hbefore
    exact (hgap.le_low hy hbefore).not_gt hlt
  have hmost : (n : ℚ) + 1 ≤ 2 ^ 24 := by exact_mod_cast hgap.small
  have hgrid : OnGrid ((2 ^ 24 - 1 : ℕ) * 2 ^ (-24 : ℤ)) :=
    onGrid_natCast_mul_zpow (by norm_num) (by norm_num)
  have hquotient : n * 2 ^ s / y ≤ (2 ^ 24 - 1 : ℕ) * 2 ^ (-24 : ℤ) := by
    calc n * 2 ^ s / y ≤ n * 2 ^ s / ((n + 1) * 2 ^ s) := by gcongr
      _ = n / (n + 1) := mul_div_mul_right _ _ hspos.ne'
      _ ≤ (2 ^ 24 - 1 : ℕ) * 2 ^ (-24 : ℤ) := by
        rw [div_le_iff₀ (by positivity)]
        norm_num at hmost ⊢
        linarith
  exact (hgrid.nearest_le hquotient).trans_lt (by norm_num)

end Beside

/-! ## Midpoints -/

/-- If a number is not rounded like another one, a midpoint lies between
them. -/
theorem exists_midpoint {v r x : ℚ} (hx : OnGrid x) (hpos : 0 < x)
    (hv : nearest v = x) (hr : nearest r ≠ x) :
    ∃ (m : ℕ) (t : ℤ), m % 2 = 1 ∧ m < 2 ^ 25 ∧ -150 ≤ t ∧
      |m * 2 ^ t - x| = 2 ^ t ∧
      |v - m * 2 ^ t| ≤ |r - v| := by
  obtain ⟨n, s, k, t, habove, hxn, hbelow, hxk, -⟩ := hx.exists_gaps hpos
  rcases hr.lt_or_gt with hlt | hlt
  · have hlow : k * 2 ^ t < x := by
      rw [hxk]
      exact mul_lt_mul_of_pos_right (lt_add_one _) (two_zpow_pos t)
    have hrle : r ≤ (k + 1 / 2) * 2 ^ t := hbelow.le_mid (hxk ▸ hlt)
    have hlev : (k + 1 / 2) * 2 ^ t ≤ v := hbelow.mid_le (hv ▸ hlow)
    refine ⟨2 * k + 1, t - 1, by omega, by have := hbelow.small; omega,
      by have := hbelow.least; omega, ?_, ?_⟩
    · have hhalf : (k + 1 / 2) * 2 ^ t - x = -(2 ^ t / 2) := by
        rw [hxk]
        ring
      rw [mid_eq, half_gap_eq, hhalf, abs_neg,
        abs_of_pos (half_pos (two_zpow_pos t))]
    · rw [mid_eq, abs_of_nonneg (by linarith), abs_of_nonpos (by linarith)]
      linarith
  · have hhigh : x < (n + 1) * 2 ^ s := by
      rw [hxn]
      exact mul_lt_mul_of_pos_right (lt_add_one _) (two_zpow_pos s)
    have hler : (n + 1 / 2) * 2 ^ s ≤ r := habove.mid_le (hxn ▸ hlt)
    have hvle : v ≤ (n + 1 / 2) * 2 ^ s := habove.le_mid (hv ▸ hhigh)
    refine ⟨2 * n + 1, s - 1, by omega, by have := habove.small; omega,
      by have := habove.least; omega, ?_, ?_⟩
    · have hhalf : (n + 1 / 2) * 2 ^ s - x = 2 ^ s / 2 := by
        rw [hxn]
        ring
      rw [mid_eq, half_gap_eq, hhalf, abs_of_pos (half_pos (two_zpow_pos s))]
    · rw [mid_eq, abs_of_nonpos (by linarith), abs_of_nonneg (by linarith)]
      linarith

end PitchFollower.Single
