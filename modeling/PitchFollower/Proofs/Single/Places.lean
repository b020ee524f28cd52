import PitchFollower.Proofs.Single.Order

/-!
# Last places

The error of rounding is at most half a last place of the exact result.  This
module adds what follows from looking at last places: numbers that are whole
multiples of a place stay so under sums, sums that keep their last place are not
rounded at all, and a count by ones is off by less than one of its last places,
however far it has come.
-/

namespace PitchFollower.Single

/-! ## Multiples of a place -/

/-- A whole number of the binary place with exponent `t`. -/
def OnPlace (t : ℤ) (q : ℚ) : Prop :=
  ∃ n : ℤ, q = n * 2 ^ t

theorem OnGrid.onPlace {g : ℚ} (h : OnGrid g) : OnPlace (lastPlace g) g :=
  h.exists_mul_lastPlace

theorem OnPlace.mono {t u : ℤ} {q : ℚ} (h : OnPlace t q) (hut : u ≤ t) :
    OnPlace u q := by
  obtain ⟨n, rfl⟩ := h
  obtain ⟨k, hk⟩ := Int.eq_ofNat_of_zero_le (sub_nonneg.mpr hut)
  obtain rfl : t = k + u := by omega
  refine ⟨n * 2 ^ k, ?_⟩
  rw [zpow_add₀ (by norm_num), zpow_natCast]
  push_cast
  ring

theorem OnPlace.add {t : ℤ} {q r : ℚ} (hq : OnPlace t q) (hr : OnPlace t r) :
    OnPlace t (q + r) := by
  obtain ⟨n, rfl⟩ := hq
  obtain ⟨k, rfl⟩ := hr
  exact ⟨n + k, by push_cast; ring⟩

/-- A sum is a multiple of the least number. -/
theorem OnGrid.add_onPlace {q r : ℚ} (hq : OnGrid q) (hr : OnGrid r) :
    OnPlace (-149) (q + r) :=
  (hq.onPlace.mono (le_max_right _ _)).add (hr.onPlace.mono (le_max_right _ _))

theorem OnPlace.sub {t : ℤ} {q r : ℚ} (hq : OnPlace t q) (hr : OnPlace t r) :
    OnPlace t (q - r) := by
  obtain ⟨n, rfl⟩ := hq
  obtain ⟨k, rfl⟩ := hr
  exact ⟨n - k, by push_cast; ring⟩

theorem onPlace_natCast {t : ℤ} (ht : t ≤ 0) (n : ℕ) : OnPlace t n :=
  OnPlace.mono (t := 0) ⟨n, by simp⟩ ht

theorem OnPlace.onGrid {t : ℤ} {q : ℚ} (h : OnPlace t q) (ht : -149 ≤ t)
    (hq : |q| < 2 ^ (t + 24)) : OnGrid q := by
  obtain ⟨n, rfl⟩ := h
  refine ⟨n, t, ?_, ht, rfl⟩
  rw [abs_mul, abs_of_pos (two_zpow_pos t), add_comm, zpow_add₀ (by norm_num),
    mul_lt_mul_iff_of_pos_right (two_zpow_pos t)] at hq
  exact_mod_cast hq

/-- A multiple of a place that exceeds a power of two exceeds it by a whole
place. -/
theorem OnPlace.abs_le_of_lt_add {t v : ℤ} {q : ℚ} (h : OnPlace t q)
    (htv : t ≤ v) (hq : |q| < 2 ^ v + 2 ^ t) : |q| ≤ 2 ^ v := by
  obtain ⟨n, rfl⟩ := h
  obtain ⟨k, hk⟩ := Int.eq_ofNat_of_zero_le (sub_nonneg.mpr htv)
  obtain rfl : v = k + t := by omega
  have hpos := two_zpow_pos t
  rw [abs_mul, abs_of_pos hpos, zpow_add₀ (by norm_num), zpow_natCast] at hq ⊢
  have hlt : |(n : ℚ)| < 2 ^ k + 1 := by
    rw [← add_one_mul] at hq
    exact lt_of_mul_lt_mul_right hq hpos.le
  have hle : |n| ≤ 2 ^ k := by
    have : |n| < 2 ^ k + 1 := by exact_mod_cast hlt
    omega
  exact mul_le_mul_of_nonneg_right (by exact_mod_cast hle) hpos.le

/-! ## Rounding and last places -/

theorem lastPlace_le_of_ne_zero {q : ℚ} {t : ℤ} (hne : q ≠ 0)
    (hq : |q| < 2 ^ (t + 24)) (ht : -149 ≤ t) : lastPlace q ≤ t := by
  have hlog :=
    (Int.lt_zpow_iff_log_lt (b := 2) (by norm_num) (abs_pos.mpr hne)).mp
    (by exact_mod_cast hq)
  unfold lastPlace
  omega

theorem lastPlace_le {q : ℚ} {t : ℤ} (hq : |q| < 2 ^ (t + 24)) (ht : -23 ≤ t) :
    lastPlace q ≤ t := by
  rcases eq_or_ne q 0 with rfl | hne
  · simp only [lastPlace, abs_zero, Int.log_zero_right]
    omega
  · exact lastPlace_le_of_ne_zero hne hq (by omega)

theorem lastPlace_zero : lastPlace 0 = -23 := by
  simp [lastPlace]

theorem lastPlace_one : lastPlace 1 = -23 := by
  simp [lastPlace]

theorem abs_nearestInt_sub_le (q : ℚ) : |nearestInt q - q| ≤ 1 / 2 := by
  have hlow := Int.floor_le q
  have hhigh := Int.lt_floor_add_one q
  have heven : (0 : ℚ) ≤ (⌊q⌋ % 2 : ℤ) := by
    exact_mod_cast Int.emod_nonneg ⌊q⌋ (by norm_num)
  have hodd : ((⌊q⌋ % 2 : ℤ) : ℚ) ≤ 1 := by
    exact_mod_cast (show ⌊q⌋ % 2 ≤ 1 by omega)
  unfold nearestInt
  split_ifs <;> push_cast <;> rw [abs_le] <;> constructor <;> linarith

theorem abs_nearest_sub_le (q : ℚ) : |nearest q - q| ≤ 2 ^ lastPlace q / 2 := by
  have hpos := two_zpow_pos (lastPlace q)
  have hq : q = q / 2 ^ lastPlace q * 2 ^ lastPlace q :=
    (div_mul_cancel₀ q hpos.ne').symm
  calc |nearest q - q|
      = |nearestInt (q / 2 ^ lastPlace q) - q / 2 ^ lastPlace q| *
        2 ^ lastPlace q := by
        rw [nearest, ← abs_of_pos hpos, ← abs_mul, abs_of_pos hpos,
          sub_mul, ← hq]
    _ ≤ 1 / 2 * 2 ^ lastPlace q :=
        mul_le_mul_of_nonneg_right (abs_nearestInt_sub_le _) hpos.le
    _ = 2 ^ lastPlace q / 2 := by ring

/-- Rounding moves a bounded number by half a last place at most.  The bound
itself has a last place that is one too high, but it is a number. -/
theorem abs_nearest_sub_le_of_abs_le {q : ℚ} {t : ℤ} (ht : -149 ≤ t)
    (hq : |q| ≤ 2 ^ (t + 24)) : |nearest q - q| ≤ 2 ^ t / 2 := by
  have hpos : (0 : ℚ) ≤ 2 ^ t / 2 :=
    div_nonneg (two_zpow_pos t).le (by norm_num)
  rcases eq_or_ne q 0 with rfl | hne
  · rwa [nearest_zero, sub_zero, abs_zero]
  · rcases hq.lt_or_eq with hlt | heq
    · refine (abs_nearest_sub_le q).trans
        (div_le_div_of_nonneg_right ?_ (by norm_num))
      exact zpow_le_zpow_right₀ (by norm_num)
        (lastPlace_le_of_ne_zero hne hlt ht)
    · have hexact := nearest_of_onGrid (onGrid_zpow (e := t + 24) (by omega))
      rcases eq_or_eq_neg_of_abs_eq heq with rfl | rfl
      · rwa [hexact, sub_self, abs_zero]
      · rwa [nearest_neg, hexact, sub_self, abs_zero]

theorem lastPlace_mul_zpow {q : ℚ} {k : ℤ} (hq : 2 ^ (-126 : ℤ) ≤ |q|)
    (hscaled : 2 ^ (-126 : ℤ) ≤ |q| * 2 ^ k) :
    lastPlace (q * 2 ^ k) = lastPlace q + k := by
  have hpos : 0 < |q| := (two_zpow_pos _).trans_le hq
  have hlog :=
    (Int.zpow_le_iff_le_log (b := 2) (by norm_num) hpos).mp
      (by exact_mod_cast hq)
  have hlogscaled := (Int.zpow_le_iff_le_log (b := 2) (by norm_num)
    (mul_pos hpos (two_zpow_pos k))).mp (by exact_mod_cast hscaled)
  rw [log_mul_zpow hpos] at hlogscaled
  rw [lastPlace, lastPlace, abs_mul, abs_of_pos (two_zpow_pos k),
    log_mul_zpow hpos]
  omega

/-- Rounding commutes with moving the binary point, away from the least
numbers. -/
theorem nearest_mul_zpow {q : ℚ} {k : ℤ} (hq : 2 ^ (-126 : ℤ) ≤ |q|)
    (hscaled : 2 ^ (-126 : ℤ) ≤ |q| * 2 ^ k) :
    nearest (q * 2 ^ k) = nearest q * 2 ^ k := by
  rw [nearest, nearest, lastPlace_mul_zpow hq hscaled, zpow_add₀ (by norm_num),
    mul_div_mul_right _ _ (two_zpow_pos k).ne', mul_assoc]

/-- Rounding commutes with doubling from one on. -/
theorem nearest_mul_two_pow {q : ℚ} (hq : 1 ≤ |q|) (k : ℕ) :
    nearest (q * 2 ^ k) = nearest q * 2 ^ k := by
  have hpow : (1 : ℚ) ≤ 2 ^ k := one_le_pow₀ (by norm_num)
  rw [← zpow_natCast]
  apply nearest_mul_zpow
  · exact le_trans (by norm_num) hq
  · rw [zpow_natCast]
    exact le_trans (by norm_num)
      (hq.trans (le_mul_of_one_le_right (abs_nonneg q) hpow))

/-- A rounded number has no lower last place than the exact one. -/
theorem lastPlace_le_lastPlace_nearest {q : ℚ} (hq : 0 < q) :
    lastPlace q ≤ lastPlace (nearest q) := by
  by_cases hplace : -149 < lastPlace q
  · have hle := zpow_le_nearest hq rfl hplace
    have hpos : 0 < nearest q := (two_zpow_pos _).trans_le hle
    have hlog :=
      (Int.zpow_le_iff_le_log (b := 2) (by norm_num) hpos).mp
        (by exact_mod_cast hle)
    unfold lastPlace at *
    rw [abs_of_pos hpos]
    omega
  · exact (not_lt.mp hplace).trans (le_max_right _ _)

/-- What is rounded to is a number, also where the mantissa has become one bit
too long. -/
theorem onGrid_nearest (q : ℚ) : OnGrid (nearest q) := by
  have hleast : -149 ≤ lastPlace q := le_max_right _ _
  have hpos := two_zpow_pos (lastPlace q)
  have hmost : |q / 2 ^ lastPlace q| ≤ (2 ^ 24 : ℤ) := by
    have habs := (abs_lt_zpow_lastPlace q).le
    rw [add_comm, zpow_add₀ (by norm_num)] at habs
    rw [abs_div, abs_of_pos hpos, div_le_iff₀ hpos]
    exact_mod_cast habs
  rw [abs_le] at hmost
  have hint : |nearestInt (q / 2 ^ lastPlace q)| ≤ 2 ^ 24 := by
    rw [abs_le]
    exact ⟨le_nearestInt (by exact_mod_cast hmost.1), nearestInt_le hmost.2⟩
  rcases hint.lt_or_eq with hlt | heq
  · exact ⟨_, _, hlt, hleast, rfl⟩
  · have htop : OnGrid (2 ^ (lastPlace q + 24)) := onGrid_zpow (by omega)
    rw [add_comm, zpow_add₀ (by norm_num)] at htop
    unfold nearest
    rcases eq_or_eq_neg_of_abs_eq heq with h | h <;> rw [h]
    · exact_mod_cast htop
    · obtain ⟨m, e, hm, he, htop⟩ := htop
      refine ⟨-m, e, by rwa [abs_neg], he, ?_⟩
      push_cast
      rw [neg_mul, neg_mul, ← htop]
      rfl

/-! ## Counting by ones -/

theorem nearest_add_one_of_lastPlace_eq {x : ℚ} (hx : OnGrid x)
    (hplace : lastPlace (x + 1) = lastPlace x) (hone : lastPlace x ≤ 0) :
    nearest (x + 1) = x + 1 := by
  apply nearest_of_onGrid
  have hmultiple : OnPlace (lastPlace x) (x + 1) := by
    simpa using hx.onPlace.add (onPlace_natCast hone 1)
  exact hmultiple.onGrid (le_max_right _ _)
    (hplace ▸ abs_lt_zpow_lastPlace (x + 1))

/-- A count that has been rounded at every step is off by less than one of its
last places.  Rounding happens where the last place rises, and by half of the
new one at most. -/
theorem abs_nearest_add_one_sub_lt {x c : ℚ} (hx : OnGrid x) (hnonneg : 0 ≤ x)
    (hone : lastPlace x ≤ 0) (hc : |x - c| < 2 ^ lastPlace x) :
    |nearest (x + 1) - (c + 1)| < 2 ^ lastPlace (nearest (x + 1)) := by
  rcases hnonneg.eq_or_lt with rfl | hpos
  · have heq : 1 - (c + 1) = 0 - c := by ring
    rwa [zero_add, nearest_of_onGrid onGrid_one, lastPlace_one,
      ← lastPlace_zero, heq]
  · have hle := lastPlace_mono hpos (le_add_of_nonneg_right zero_le_one)
    rcases hle.eq_or_lt with hsame | hrise
    · rw [nearest_add_one_of_lastPlace_eq hx hsame.symm hone, ← hsame]
      rwa [add_sub_add_right_eq_sub]
    · have hhalf : (2 : ℚ) ^ lastPlace x ≤ 2 ^ lastPlace (x + 1) / 2 := by
        rw [div_eq_mul_inv, ← zpow_neg_one, ← zpow_add₀ (by norm_num)]
        exact zpow_le_zpow_right₀ (by norm_num) (by omega)
      calc |nearest (x + 1) - (c + 1)|
          = |(nearest (x + 1) - (x + 1)) + (x - c)| := by ring_nf
        _ ≤ |nearest (x + 1) - (x + 1)| + |x - c| := abs_add_le _ _
        _ < 2 ^ lastPlace (x + 1) / 2 + 2 ^ lastPlace (x + 1) / 2 :=
            add_lt_add_of_le_of_lt (abs_nearest_sub_le _) (hc.trans_le hhalf)
        _ = 2 ^ lastPlace (x + 1) := add_halves _
        _ ≤ 2 ^ lastPlace (nearest (x + 1)) :=
            zpow_le_zpow_right₀ (by norm_num)
              (lastPlace_le_lastPlace_nearest (by linarith))

/-- A difference is rounded by at most half a last place, and a count that goes
on from the rounded difference is off by less than a last place.  Both together
make no more than the larger of the two places: their sum is a multiple of the
place of the difference, unless the count has a lower one. -/
theorem abs_rounding_add_le {s f x : ℚ} {m : ℕ} {t : ℤ} (hs : OnGrid s)
    (hx : OnGrid x) (hperiod : 0 < nearest (s - f)) (hle : nearest (s - f) ≤ s)
    (hcount : |x - (f + m)| < 2 ^ lastPlace x)
    (hplace : lastPlace (nearest (s - f)) ≤ t) (hxplace : lastPlace x ≤ t)
    (ht : t ≤ 0) : |nearest (s - f) - (s - f) + (x - (f + m))| ≤ 2 ^ t := by
  have hdiff : 0 < s - f := by
    by_contra hneg
    have := nearest_mono (not_lt.mp hneg)
    rw [nearest_zero] at this
    linarith
  have hhalf : |nearest (s - f) - (s - f)| ≤
      2 ^ lastPlace (nearest (s - f)) / 2 := by
    refine (abs_nearest_sub_le (s - f)).trans
      (div_le_div_of_nonneg_right ?_ (by norm_num))
    exact zpow_le_zpow_right₀ (by norm_num)
      (lastPlace_le_lastPlace_nearest hdiff)
  have hgrid := onGrid_nearest (s - f)
  generalize nearest (s - f) = p at *
  have hboth : |p - (s - f) + (x - (f + m))| <
      2 ^ lastPlace p / 2 + 2 ^ lastPlace x :=
    (abs_add_le _ _).trans_lt (add_lt_add_of_le_of_lt hhalf hcount)
  rcases le_or_gt (lastPlace p) (lastPlace x) with hplaces | hplaces
  · have hmultiple : OnPlace (lastPlace p) (p - (s - f) + (x - (f + m))) := by
      have heq : p - (s - f) + (x - (f + m)) = p - s + x - m := by ring
      rw [heq]
      exact
        ((hgrid.onPlace.sub (hs.onPlace.mono (lastPlace_mono hperiod hle))).add
        (hx.onPlace.mono hplaces)).sub (onPlace_natCast (hplace.trans ht) m)
    refine (hmultiple.abs_le_of_lt_add hplaces ?_).trans
      (zpow_le_zpow_right₀ (by norm_num) hxplace)
    have := two_zpow_pos (lastPlace p)
    linarith
  · have hhalf' : (2 : ℚ) ^ lastPlace x ≤ 2 ^ lastPlace p / 2 := by
      rw [div_eq_mul_inv, ← zpow_neg_one, ← zpow_add₀ (by norm_num)]
      exact zpow_le_zpow_right₀ (by norm_num) (by omega)
    have hpow : (2 : ℚ) ^ lastPlace p ≤ 2 ^ t :=
      zpow_le_zpow_right₀ (by norm_num) hplace
    linarith

end PitchFollower.Single
