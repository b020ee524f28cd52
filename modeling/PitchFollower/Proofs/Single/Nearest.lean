import Mathlib.Algebra.Order.Field.Power
import Mathlib.Data.Int.Log
import Mathlib.Data.Rat.Floor
import Mathlib.Tactic.FieldSimp
import Mathlib.Tactic.Linarith
import Mathlib.Tactic.NormNum
import Mathlib.Tactic.Positivity
import Mathlib.Tactic.Ring

/-!
# Rounding exact results

An operation on single precision numbers has an exact rational result and
rounds it once, to the nearest number with a mantissa of 24 bits and to the one
with the even mantissa if two are equally near.  This module defines the
rounding on rational numbers, with no upper limit on the exponent, and derives
what follows without looking at bit patterns: it keeps the order, it is odd, and
it fixes the numbers that it rounds to.
-/

namespace PitchFollower.Single

/-! ## Nearest integers -/

/-- The nearest integer, and the even one of two that are equally near. -/
def nearestInt (q : ℚ) : ℤ :=
  if q - ⌊q⌋ < 1 / 2 then ⌊q⌋
  else if 1 / 2 < q - ⌊q⌋ then ⌊q⌋ + 1
  else ⌊q⌋ + ⌊q⌋ % 2

theorem nearestInt_intCast (n : ℤ) : nearestInt n = n := by
  simp [nearestInt]

theorem floor_le_nearestInt (q : ℚ) : ⌊q⌋ ≤ nearestInt q := by
  unfold nearestInt
  split_ifs <;> omega

theorem nearestInt_le_floor_add_one (q : ℚ) : nearestInt q ≤ ⌊q⌋ + 1 := by
  unfold nearestInt
  split_ifs <;> omega

theorem le_nearestInt {n : ℤ} {q : ℚ} (h : (n : ℚ) ≤ q) : n ≤ nearestInt q :=
  (Int.le_floor.mpr h).trans (floor_le_nearestInt q)

theorem nearestInt_mono {q r : ℚ} (h : q ≤ r) :
    nearestInt q ≤ nearestInt r := by
  rcases (Int.floor_le_floor h).lt_or_eq with hlt | heq
  · calc nearestInt q ≤ ⌊q⌋ + 1 := nearestInt_le_floor_add_one q
      _ ≤ ⌊r⌋ := hlt
      _ ≤ nearestInt r := floor_le_nearestInt r
  · unfold nearestInt
    rw [heq]
    split_ifs <;> first | omega | linarith

theorem nearestInt_le {n : ℤ} {q : ℚ} (h : q ≤ n) : nearestInt q ≤ n := by
  simpa only [nearestInt_intCast] using nearestInt_mono h

/-- Rounding is odd: a tie goes to the even neighbour on both sides of zero. -/
theorem nearestInt_neg (q : ℚ) : nearestInt (-q) = -nearestInt q := by
  by_cases hq : q = ⌊q⌋
  · rw [hq, ← Int.cast_neg, nearestInt_intCast, nearestInt_intCast]
  · have hfloor : ⌊-q⌋ = -⌊q⌋ - 1 := by
      have hlt : (⌊q⌋ : ℚ) < q := lt_of_le_of_ne (Int.floor_le q) (Ne.symm hq)
      have hup := Int.lt_floor_add_one q
      rw [Int.floor_eq_iff]
      push_cast
      constructor <;> linarith
    unfold nearestInt
    rw [hfloor]
    push_cast
    split_ifs <;> first | omega | (exfalso; linarith)

/-! ## Nearest numbers -/

/-- The exponent of the last binary place of the numbers around `q`: they have
24 places, and none of them lies below `2 ^ (-149)`. -/
def lastPlace (q : ℚ) : ℤ :=
  max (Int.log 2 |q| - 23) (-149)

/-- The number nearest to `q`, whatever its exponent. -/
def nearest (q : ℚ) : ℚ :=
  nearestInt (q / 2 ^ lastPlace q) * 2 ^ lastPlace q

/-- The numbers that are rounded to: mantissas of 24 bits and an exponent. -/
def OnGrid (g : ℚ) : Prop :=
  ∃ m e : ℤ, |m| < 2 ^ 24 ∧ -149 ≤ e ∧ g = m * 2 ^ e

theorem lastPlace_neg (q : ℚ) : lastPlace (-q) = lastPlace q := by
  simp [lastPlace]

theorem nearest_neg (q : ℚ) : nearest (-q) = -nearest q := by
  simp [nearest, lastPlace_neg, neg_div, nearestInt_neg]

theorem two_zpow_pos (t : ℤ) : (0 : ℚ) < 2 ^ t :=
  zpow_pos (by norm_num) t

theorem abs_lt_zpow_lastPlace (q : ℚ) : |q| < 2 ^ (lastPlace q + 24) := by
  have hlog : |q| < (2 : ℕ) ^ (Int.log 2 |q| + 1) :=
    Int.lt_zpow_succ_log_self (by norm_num) |q|
  refine hlog.trans_le (zpow_le_zpow_right₀ (by norm_num) ?_)
  unfold lastPlace
  omega

theorem zpow_lastPlace_le_abs
    {q : ℚ} (hq : q ≠ 0) (hplace : -149 < lastPlace q) :
    2 ^ (lastPlace q + 23) ≤ |q| := by
  have hlog : ((2 : ℕ) : ℚ) ^ Int.log 2 |q| ≤ |q| :=
    Int.zpow_log_le_self (by norm_num) (abs_pos.mpr hq)
  have heq : lastPlace q + 23 = Int.log 2 |q| := by
    unfold lastPlace at *
    omega
  rw [heq]
  exact_mod_cast hlog

theorem lastPlace_mono
    {q r : ℚ} (hq : 0 < q) (h : q ≤ r) :
    lastPlace q ≤ lastPlace r := by
  have hlog : Int.log 2 |q| ≤ Int.log 2 |r| :=
    Int.log_mono_right (abs_pos.mpr hq.ne')
      (by rwa [abs_of_pos hq, abs_of_pos (hq.trans_le h)])
  unfold lastPlace
  omega

/-- A number on the grid is a whole number of its own last places. -/
theorem OnGrid.exists_mul_lastPlace
    {g : ℚ} (h : OnGrid g) :
    ∃ n : ℤ, g = n * 2 ^ lastPlace g := by
  obtain ⟨m, e, hm, he, rfl⟩ := h
  by_cases hzero : m = 0
  · exact ⟨0, by simp [hzero]⟩
  · have hpos : 0 < |(m : ℚ) * 2 ^ e| := by
      have hm' : (m : ℚ) ≠ 0 := by exact_mod_cast hzero
      exact abs_pos.mpr (mul_ne_zero hm' (two_zpow_pos e).ne')
    have hlt : |(m : ℚ) * 2 ^ e| < ((2 : ℕ) : ℚ) ^ (24 + e) := by
      have hm' : |(m : ℚ)| < 2 ^ 24 := by exact_mod_cast hm
      rw [abs_mul, abs_of_pos (two_zpow_pos e), Nat.cast_ofNat,
        zpow_add₀ (by norm_num)]
      exact mul_lt_mul_of_pos_right (by exact_mod_cast hm') (two_zpow_pos e)
    have hplace : lastPlace ((m : ℚ) * 2 ^ e) ≤ e := by
      have := (Int.lt_zpow_iff_log_lt (by norm_num) hpos).mp hlt
      unfold lastPlace
      omega
    obtain ⟨k, hk⟩ := Int.eq_ofNat_of_zero_le (sub_nonneg.mpr hplace)
    refine ⟨m * 2 ^ k, ?_⟩
    generalize lastPlace ((m : ℚ) * 2 ^ e) = t at *
    obtain rfl : e = k + t := by omega
    rw [zpow_add₀ (by norm_num), zpow_natCast]
    push_cast
    ring

theorem nearest_of_onGrid {g : ℚ} (h : OnGrid g) : nearest g = g := by
  obtain ⟨n, hn⟩ := h.exists_mul_lastPlace
  have hdiv : g / 2 ^ lastPlace g = n := by
    rw [div_eq_iff (two_zpow_pos _).ne']
    exact hn
  rw [nearest, hdiv, nearestInt_intCast, ← hn]

theorem nearest_zero : nearest 0 = 0 := by
  simp [nearest, nearestInt]

theorem nearest_le_zpow
    {q : ℚ} {t : ℤ} (ht : lastPlace q = t) :
    nearest q ≤ 2 ^ (t + 24) := by
  have hle : q / 2 ^ t ≤ (2 ^ 24 : ℤ) := by
    have habs := (le_abs_self q).trans (abs_lt_zpow_lastPlace q).le
    rw [div_le_iff₀ (two_zpow_pos t)]
    rwa [ht, zpow_add₀ (by norm_num), mul_comm] at habs
  have hint : (nearestInt (q / 2 ^ t) : ℚ) ≤ 2 ^ 24 := by
    exact_mod_cast nearestInt_le hle
  rw [nearest, ht, zpow_add₀ (by norm_num), mul_comm]
  exact mul_le_mul_of_nonneg_left hint (two_zpow_pos t).le

theorem zpow_le_nearest
    {q : ℚ} {t : ℤ} (hq : 0 < q) (ht : lastPlace q = t) (hplace : -149 < t) :
    2 ^ (t + 23) ≤ nearest q := by
  have hle : ((2 ^ 23 : ℤ) : ℚ) ≤ q / 2 ^ t := by
    have habs := zpow_lastPlace_le_abs hq.ne' (ht ▸ hplace)
    rw [le_div_iff₀ (two_zpow_pos t)]
    rwa [abs_of_pos hq, ht, zpow_add₀ (by norm_num), mul_comm] at habs
  have hint : (2 ^ 23 : ℚ) ≤ nearestInt (q / 2 ^ t) := by
    exact_mod_cast le_nearestInt hle
  rw [nearest, ht, zpow_add₀ (by norm_num), mul_comm]
  exact mul_le_mul_of_nonneg_right hint (two_zpow_pos t).le

theorem nearest_nonneg {q : ℚ} (h : 0 ≤ q) : 0 ≤ nearest q := by
  have hint : (0 : ℤ) ≤ nearestInt (q / 2 ^ lastPlace q) :=
    le_nearestInt (by have := two_zpow_pos (lastPlace q); positivity)
  exact mul_nonneg (by exact_mod_cast hint) (two_zpow_pos _).le

/-- Between numbers with different last places there is a power of two, and
rounding does not cross it. -/
theorem nearest_mono_of_pos
    {q r : ℚ} (hq : 0 < q) (h : q ≤ r) :
    nearest q ≤ nearest r := by
  rcases (lastPlace_mono hq h).lt_or_eq with hlt | heq
  · have hplace : -149 < lastPlace r := (le_max_right _ _).trans_lt hlt
    calc nearest q ≤ 2 ^ (lastPlace q + 24) := nearest_le_zpow rfl
      _ ≤ 2 ^ (lastPlace r + 23) :=
        zpow_le_zpow_right₀ (by norm_num) (by omega)
      _ ≤ nearest r := zpow_le_nearest (hq.trans_le h) rfl hplace
  · rw [nearest, nearest, heq]
    have hpos := two_zpow_pos (lastPlace r)
    have hint := nearestInt_mono (div_le_div_of_nonneg_right h hpos.le)
    exact mul_le_mul_of_nonneg_right (by exact_mod_cast hint) hpos.le

theorem nearest_mono {q r : ℚ} (h : q ≤ r) : nearest q ≤ nearest r := by
  rcases lt_or_ge 0 q with hq | hq
  · exact nearest_mono_of_pos hq h
  · have hneg : nearest q ≤ 0 := by
      have := nearest_nonneg (neg_nonneg.mpr hq)
      rw [nearest_neg] at this
      linarith
    rcases le_or_gt 0 r with hr | hr
    · exact hneg.trans (nearest_nonneg hr)
    · have := nearest_mono_of_pos (neg_pos.mpr hr) (neg_le_neg h)
      rw [nearest_neg, nearest_neg] at this
      linarith

theorem OnGrid.le_nearest
    {g q : ℚ} (hg : OnGrid g) (h : g ≤ q) :
    g ≤ nearest q := by
  simpa only [nearest_of_onGrid hg] using nearest_mono h

theorem OnGrid.nearest_le
    {g q : ℚ} (hg : OnGrid g) (h : q ≤ g) :
    nearest q ≤ g := by
  simpa only [nearest_of_onGrid hg] using nearest_mono h

end PitchFollower.Single
