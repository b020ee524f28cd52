import Mathlib.Algebra.BigOperators.Group.List.Basic
import Mathlib.Algebra.Order.BigOperators.Group.Multiset
import PitchFollower.Proofs.Single.Bits
import PitchFollower.Proofs.Single.Errors
import PitchFollower.Proofs.Single.Scaling

/-!
# Sums

Two numbers can be added in either order.  The sum of a longer list depends on
the order, because every addition is rounded, but only within the rounding
errors.  A sum that is not rounded to a normal number is exact, so these errors
are all relative.
-/

namespace PitchFollower.Single

open Float.Model.UnpackedFloat

/-! ## Two terms -/

theorem single_add_comm (x y : Float32) : x + y = y + x := by
  change ofUnpacked (add .binary32 (unpacked x) (unpacked y)) =
    ofUnpacked (add .binary32 (unpacked y) (unpacked x))
  congr 1
  cases unpacked x with
  | finite s m e hm =>
    cases unpacked y with
    | finite s' n f hn =>
      change normalize .binary32 (s.apply _ + s'.apply _) (min e f) .positive =
        normalize .binary32 (s'.apply _ + s.apply _) (min f e) .positive
      rw [min_comm f e, add_comm]
    | _ => rfl
  | zero s =>
    cases unpacked y with
    | zero s' => cases s <;> cases s' <;> rfl
    | _ => rfl
  | infinity s =>
    cases unpacked y with
    | infinity s' => cases s <;> cases s' <;> rfl
    | _ => rfl
  | notANumber => cases unpacked y <;> rfl

/-- Negative zero is the neutral element, also of zeros. -/
theorem single_neg_zero_add (x : Float32) : -0 + x = x := by
  have hneutral : ∀ u, add .binary32 (.zero .negative) u = u := by
    intro u
    cases u with
    | zero s => cases s <;> rfl
    | _ => rfl
  change ofUnpacked (add .binary32 (.zero .negative) (unpacked x)) = x
  rw [hneutral, ofUnpacked_unpacked]

/-- Zero is neutral but for the negative zero, so a second one changes
nothing. -/
theorem single_add_zero_add_zero (x : Float32) : x + 0 + 0 = x + 0 := by
  have hadd (y : Float32) : y + 0 =
      ofUnpacked (add .binary32 (unpacked y) (.zero .positive)) := rfl
  cases h : unpacked x with
  | zero s =>
    have hzero : x + 0 = 0 := by
      rw [hadd, h]
      cases s <;> rfl
    rw [hzero]
    rfl
  | _ =>
    have hsame : x + 0 = x := by
      rw [hadd, h]
      conv_rhs => rw [← ofUnpacked_unpacked x, h]
      rfl
    rw [hsame, hsame]

theorem foldl_add_zeros (x : Float32) (k : ℕ) :
    (List.replicate (k + 1) 0).foldl (· + ·) x = x + 0 := by
  induction k with
  | zero => rfl
  | succ k ih =>
    rw [List.replicate_succ', List.foldl_concat, ih, single_add_zero_add_zero]

/-! ## Many terms -/

/-- What one becomes if it is rounded up `n` times by one part in `2 ^ 24`. -/
def growth (n : ℕ) : ℚ :=
  (1 + 2 ^ (-24 : ℤ)) ^ n

theorem growth_succ (n : ℕ) : growth (n + 1) = growth n * (1 + 2 ^ (-24 : ℤ)) :=
  pow_succ _ n

theorem one_le_growth (n : ℕ) : 1 ≤ growth n :=
  one_le_pow₀ (le_add_of_nonneg_right (two_zpow_pos _).le)

/-- The magnitudes of some numbers, added up. -/
def magnitude (xs : List Float32) : ℚ :=
  (xs.map fun x => |exact x|).sum

theorem magnitude_nonneg (xs : List Float32) : 0 ≤ magnitude xs := by
  apply List.sum_nonneg
  rintro q hq
  obtain ⟨x, -, rfl⟩ := List.mem_map.mp hq
  exact abs_nonneg _

theorem magnitude_of_perm {xs ys : List Float32} (h : xs.Perm ys) :
    magnitude xs = magnitude ys :=
  (h.map fun x => |exact x|).sum_eq

theorem abs_sum_exact_le (xs : List Float32) :
    |(xs.map exact).sum| ≤ magnitude xs := by
  have hle := Multiset.abs_sum_le_sum_abs (s := (xs.map exact : Multiset ℚ))
  rwa [Multiset.sum_coe, Multiset.map_coe, Multiset.sum_coe,
    List.map_map] at hle

/-- A sum is off by one part in `2 ^ 24`, even if it is tiny. -/
theorem add_near {x y : Float32} (hx : x.isFinite = true)
    (hy : y.isFinite = true) (hroom : |exact x| + |exact y| ≤ 2 ^ (127 : ℤ)) :
    (x + y).isFinite = true ∧
      |exact (x + y) - (exact x + exact y)| ≤
        (|exact x| + |exact y|) * 2 ^ (-24 : ℤ) := by
  have hle := abs_add_le (exact x) (exact y)
  obtain ⟨hfinite, hexact⟩ :=
    (add_roundsTo hx hy).finite_of_abs_le (onGrid_zpow (by norm_num))
    (by norm_num) (hle.trans hroom)
  refine ⟨hfinite, ?_⟩
  rw [hexact]
  exact ((onGrid_exact x).add_onPlace (onGrid_exact y)).abs_nearest_sub_le.trans
    (mul_le_mul_of_nonneg_right hle (two_zpow_pos _).le)

/-- Every term that is added may round what has been added before once more. -/
theorem foldl_add_near (xs : List Float32) (hxs : ∀ x ∈ xs, x.isFinite = true)
    {start : Float32} (hstart : start.isFinite = true)
    (hroom : growth xs.length * (|exact start| + magnitude xs) ≤
      2 ^ (127 : ℤ)) :
    (xs.foldl (· + ·) start).isFinite = true ∧
      |exact (xs.foldl (· + ·) start) - (exact start + (xs.map exact).sum)| ≤
        (growth xs.length - 1) * (|exact start| + magnitude xs) := by
  induction xs generalizing start with
  | nil => exact ⟨hstart, by simp [growth]⟩
  | cons x xs ih =>
    have hmagnitude : magnitude (x :: xs) = |exact x| + magnitude xs := rfl
    have hterms := magnitude_nonneg xs
    have hgrowth := one_le_growth xs.length
    have hunit := two_zpow_pos (-24)
    rw [List.length_cons, growth_succ, hmagnitude, ← add_assoc] at hroom ⊢
    rw [List.foldl_cons, List.map_cons, List.sum_cons, ← add_assoc]
    have htwo := add_nonneg (abs_nonneg (exact start)) (abs_nonneg (exact x))
    have hfits : |exact start| + |exact x| ≤ 2 ^ (127 : ℤ) := by
      refine le_trans ?_ hroom
      refine (le_add_of_nonneg_right hterms).trans
        (le_mul_of_one_le_left (by linarith) ?_)
      exact one_le_mul_of_one_le_of_one_le hgrowth (by linarith)
    obtain ⟨hfinite, hnear⟩ := add_near hstart (hxs x List.mem_cons_self) hfits
    have hlarger : |exact (start + x)| + magnitude xs ≤
        (1 + 2 ^ (-24 : ℤ)) * (|exact start| + |exact x| + magnitude xs) := by
      have hsum := abs_add_le (exact start) (exact x)
      have hstep :=
        abs_sub_abs_le_abs_sub (exact (start + x)) (exact start + exact x)
      have hmore := mul_nonneg hterms hunit.le
      linarith
    obtain ⟨hall, hrest⟩ :=
      ih (fun y hy => hxs y (List.mem_cons_of_mem x hy)) hfinite
      ((mul_le_mul_of_nonneg_left hlarger (by linarith)).trans
        (by rwa [← mul_assoc]))
    refine ⟨hall, ?_⟩
    generalize xs.foldl (· + ·) (start + x) = total at hrest ⊢
    calc |exact total - (exact start + exact x + (xs.map exact).sum)|
        = |(exact total - (exact (start + x) + (xs.map exact).sum)) +
            (exact (start + x) - (exact start + exact x))| := by congr 1; ring
      _ ≤ (growth xs.length - 1) * (|exact (start + x)| + magnitude xs) +
            (|exact start| + |exact x|) * 2 ^ (-24 : ℤ) :=
          (abs_add_le _ _).trans (add_le_add hrest hnear)
      _ ≤ (growth xs.length - 1) *
              ((1 + 2 ^ (-24 : ℤ)) *
                (|exact start| + |exact x| + magnitude xs)) +
            (|exact start| + |exact x| + magnitude xs) * 2 ^ (-24 : ℤ) := by
          exact add_le_add (mul_le_mul_of_nonneg_left hlarger (by linarith))
            (mul_le_mul_of_nonneg_right (le_add_of_nonneg_right hterms)
              hunit.le)
      _ = _ := by ring

theorem sum_near {xs : Array Float32} (hxs : ∀ x ∈ xs, x.isFinite = true)
    (hroom : growth xs.size * magnitude xs.toList ≤ 2 ^ (127 : ℤ)) :
    (sum xs).isFinite = true ∧
      |exact (sum xs) - (xs.toList.map exact).sum| ≤
        (growth xs.size - 1) * magnitude xs.toList := by
  have hzero : exact (-0) = 0 := by rw [exact_neg, exact_zero, neg_zero]
  have hnear :=
    foldl_add_near xs.toList (fun x hx => hxs x (Array.mem_toList_iff.mp hx))
    (show (-0 : Float32).isFinite = true by rw [isFinite_neg]; rfl)
    (by rwa [hzero, abs_zero, zero_add, Array.length_toList])
  rwa [hzero, abs_zero, zero_add, zero_add, Array.length_toList,
    Array.foldl_toList] at hnear

end PitchFollower.Single
