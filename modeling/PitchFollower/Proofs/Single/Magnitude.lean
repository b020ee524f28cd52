import PitchFollower.Proofs.Single.Order

/-!
# Magnitudes

Bounds on the magnitudes of rounded results.  A result stays within a number on
the grid if the exact one does, so bounds pass through sums, products and
quotients, and a chain of operations on bounds that stays finite keeps the same
chain on smaller operands finite.  An operand that is not finite makes a result
that is not finite either, but a sum of numbers that are not negative never
turns into anything worse than an infinity.
-/

namespace PitchFollower.Single

open Float.Model (UnpackedFloat)
open Float.Model.UnpackedFloat

/-! ## Operands that are not finite -/

theorem isFinite_ofUnpacked_eq_false {u : UnpackedFloat}
    (hu : u.isFinite = false) : (ofUnpacked u).isFinite = false := by
  change (unpacked (ofUnpacked u)).isFinite = false
  cases u with
  | infinity s =>
    rw [unpacked_ofUnpacked (u := .infinity s) trivial trivial]; exact hu
  | notANumber =>
    rw [unpacked_ofUnpacked (u := .notANumber) trivial trivial]; exact hu
  | zero s => cases hu
  | finite s m e hm => cases hu

theorem isFinite_of_add {x y : Float32} (h : (x + y).isFinite = true) :
    x.isFinite = true ∧ y.isFinite = true := by
  change (ofUnpacked (add .binary32 (unpacked x) (unpacked y))).isFinite =
    true at h
  rw [isFinite_iff, isFinite_iff]
  by_contra hnot
  rw [isFinite_ofUnpacked_eq_false] at h
  · cases h
  · generalize unpacked x = u at *
    generalize unpacked y = v at *
    cases u with
    | infinity s =>
      cases v with
      | infinity t =>
        change (if s == t then UnpackedFloat.infinity s
          else .notANumber).isFinite = false
        split_ifs <;> rfl
      | _ => rfl
    | notANumber => rfl
    | zero s => cases v <;> first | rfl | exact absurd ⟨rfl, rfl⟩ hnot
    | finite s m e hm => cases v <;> first | rfl | exact absurd ⟨rfl, rfl⟩ hnot

theorem isFinite_of_mul {x y : Float32} (h : (x * y).isFinite = true) :
    x.isFinite = true ∧ y.isFinite = true := by
  change (ofUnpacked (mul .binary32 (unpacked x) (unpacked y))).isFinite =
    true at h
  rw [isFinite_iff, isFinite_iff]
  by_contra hnot
  rw [isFinite_ofUnpacked_eq_false] at h
  · cases h
  · generalize unpacked x = u at *
    generalize unpacked y = v at *
    cases u <;> cases v <;> first | rfl | exact absurd ⟨rfl, rfl⟩ hnot

theorem isFinite_of_div {x y : Float32} (h : (x / y).isFinite = true) :
    x.isFinite = true := by
  change (ofUnpacked (div .binary32 (unpacked x) (unpacked y))).isFinite =
    true at h
  rw [isFinite_iff]
  by_contra hnot
  rw [isFinite_ofUnpacked_eq_false] at h
  · cases h
  · generalize unpacked x = u at *
    cases u <;> cases unpacked y <;> first | rfl | exact absurd rfl hnot

/-! ## Absolute values -/

theorem canonical_abs {u : UnpackedFloat} (hu : Canonical u) :
    Canonical u.abs := by
  cases u <;> exact hu

theorem inRange_abs {u : UnpackedFloat} (hu : InRange u) : InRange u.abs := by
  cases u <;> exact hu

theorem unpacked_abs (x : Float32) : unpacked x.abs = (unpacked x).abs :=
  unpacked_ofUnpacked (canonical_abs (canonical_unpacked x))
    (inRange_abs (inRange_unpacked x))

theorem isFinite_abs (x : Float32) : x.abs.isFinite = x.isFinite := by
  change (unpacked x.abs).isFinite = (unpacked x).isFinite
  rw [unpacked_abs]
  cases unpacked x <;> rfl

theorem exact_abs (x : Float32) : exact x.abs = |exact x| := by
  rw [exact, exact, unpacked_abs]
  cases unpacked x with
  | finite s m e hm =>
    have hpos : (0 : ℚ) ≤ m * 2 ^ e := by positivity
    change exactOf (.finite .positive m e hm) = |exactOf (.finite s m e hm)|
    rw [exactOf_finite, exactOf_finite, abs_signed, signed, abs_of_nonneg hpos]
  | _ => exact abs_zero.symm

theorem exact_abs_pos {x : Float32} (h : exact x ≠ 0) : 0 < exact x.abs := by
  rw [exact_abs]
  exact abs_pos.mpr h

theorem onGrid_abs_exact (x : Float32) : OnGrid |exact x| := by
  rw [← exact_abs]
  exact onGrid_exact _

/-! ## Bounds -/

/-- A finite number of magnitude at most `b`. -/
structure Within (b : ℚ) (x : Float32) : Prop where
  isFinite : x.isFinite = true
  abs_le : |exact x| ≤ b

theorem abs_nearest_le_nearest {q r : ℚ} (h : |q| ≤ r) :
    |nearest q| ≤ nearest r := by
  rw [abs_le] at h ⊢
  constructor
  · rw [← nearest_neg]
    exact nearest_mono h.1
  · exact nearest_mono h.2

theorem RoundsTo.within_nearest {q r : ℚ} {z : Float32} (h : RoundsTo q z)
    (hq : |q| ≤ r) (hr : nearest r < 2 ^ 128) : Within (nearest r) z := by
  have habs := abs_nearest_le_nearest hq
  rw [RoundsTo, if_pos (habs.trans_lt hr)] at h
  exact ⟨h.1, h.2 ▸ habs⟩

theorem RoundsTo.within {q g : ℚ} {z : Float32} (h : RoundsTo q z)
    (hg : OnGrid g) (hmost : g < 2 ^ 128) (hq : |q| ≤ g) : Within g z := by
  have hgrid := nearest_of_onGrid hg
  have hwithin := h.within_nearest hq (hgrid.trans_lt hmost)
  rwa [hgrid] at hwithin

theorem RoundsTo.exact_eq {q : ℚ} {z : Float32} (h : RoundsTo q z)
    (hz : z.isFinite = true) : exact z = nearest q := by
  unfold RoundsTo at h
  split_ifs at h
  · exact h.2
  all_goals
    rw [isFinite_iff, h] at hz
    cases hz

theorem within_self {x : Float32} (hx : x.isFinite = true) :
    Within |exact x| x :=
  ⟨hx, le_rfl⟩

section Bounds

variable {a b g : ℚ} {x y : Float32}

theorem Within.mono (hx : Within a x) (hab : a ≤ b) : Within b x :=
  ⟨hx.isFinite, hx.abs_le.trans hab⟩

theorem Within.nonneg (hx : Within a x) : 0 ≤ a :=
  (abs_nonneg _).trans hx.abs_le

theorem Within.neg (hx : Within a x) : Within a (-x) :=
  ⟨(isFinite_neg x).trans hx.isFinite,
    by rw [exact_neg, abs_neg]; exact hx.abs_le⟩

theorem Within.abs (hx : Within a x) : Within a x.abs :=
  ⟨(isFinite_abs x).trans hx.isFinite,
    by rw [exact_abs, abs_abs]; exact hx.abs_le⟩

theorem within_zero : Within 0 0 :=
  ⟨rfl, by rw [exact_zero, abs_zero]⟩

theorem Within.add (hx : Within a x) (hy : Within b y) (hg : OnGrid g)
    (hmost : g < 2 ^ 128) (hab : a + b ≤ g) : Within g (x + y) := by
  apply (add_roundsTo hx.isFinite hy.isFinite).within hg hmost
  calc |exact x + exact y| ≤ |exact x| + |exact y| := abs_add_le _ _
    _ ≤ a + b := add_le_add hx.abs_le hy.abs_le
    _ ≤ g := hab

theorem Within.sub (hx : Within a x) (hy : Within b y) (hg : OnGrid g)
    (hmost : g < 2 ^ 128) (hab : a + b ≤ g) : Within g (x - y) := by
  rw [single_sub_eq_add_neg]
  exact hx.add hy.neg hg hmost hab

theorem Within.mul (hx : Within a x) (hy : Within b y) (hg : OnGrid g)
    (hmost : g < 2 ^ 128) (hab : a * b ≤ g) : Within g (x * y) := by
  apply (mul_roundsTo hx.isFinite hy.isFinite).within hg hmost
  calc |exact x * exact y| = |exact x| * |exact y| := abs_mul _ _
    _ ≤ a * b := mul_le_mul hx.abs_le hy.abs_le (abs_nonneg _) hx.nonneg
    _ ≤ g := hab

theorem Within.div (hx : Within a x) (hy : y.isFinite = true)
    (hpos : 0 < exact y) (hg : OnGrid g) (hmost : g < 2 ^ 128)
    (hab : a ≤ g * exact y) : Within g (x / y) := by
  apply (div_roundsTo hx.isFinite hy hpos.ne').within hg hmost
  rw [abs_div, abs_of_pos hpos, div_le_iff₀ hpos]
  exact hx.abs_le.trans hab

theorem Within.add_of_isFinite {u v : Float32} (hx : Within (exact u) x)
    (hy : Within (exact v) y) (h : (u + v).isFinite = true) :
    Within (exact (u + v)) (x + y) := by
  obtain ⟨hu, hv⟩ := isFinite_of_add h
  have hexact := (add_roundsTo hu hv).exact_eq h
  have hmost := (le_abs_self _).trans_lt (abs_exact_lt (u + v))
  rw [hexact] at hmost ⊢
  apply (add_roundsTo hx.isFinite hy.isFinite).within_nearest _ hmost
  exact (abs_add_le _ _).trans (add_le_add hx.abs_le hy.abs_le)

theorem Within.mul_of_isFinite {u v : Float32} (hx : Within (exact u) x)
    (hy : Within (exact v) y) (h : (u * v).isFinite = true) :
    Within (exact (u * v)) (x * y) := by
  obtain ⟨hu, hv⟩ := isFinite_of_mul h
  have hexact := (mul_roundsTo hu hv).exact_eq h
  have hmost := (le_abs_self _).trans_lt (abs_exact_lt (u * v))
  rw [hexact] at hmost ⊢
  apply (mul_roundsTo hx.isFinite hy.isFinite).within_nearest _ hmost
  rw [abs_mul]
  exact mul_le_mul hx.abs_le hy.abs_le (abs_nonneg _) hx.nonneg

end Bounds

/-! ## Infinite operands -/

section InfiniteOperands

variable {x y : Float32} {s : Sign}

theorem unpacked_add_of_infinity (hx : unpacked x = .infinity s)
    (hy : y.isFinite = true) : unpacked (x + y) = .infinity s := by
  have hsum : unpacked (x + y) =
      unpacked (ofUnpacked (add .binary32 (unpacked x) (unpacked y))) := rfl
  rw [hsum, hx]
  rcases zero_or_finite_of_isFinite hy with ⟨t, huy⟩ | ⟨t, n, f, hn, huy⟩ <;>
    rw [huy] <;>
    exact unpacked_ofUnpacked (u := .infinity s) trivial trivial

theorem unpacked_of_pos (hy : y.isFinite = true) (hpos : 0 < exact y) :
    ∃ m e hm, unpacked y = .finite .positive m e hm := by
  rw [exact] at hpos
  rcases zero_or_finite_of_isFinite hy with ⟨t, huy⟩ | ⟨t, n, f, hn, huy⟩ <;>
    rw [huy] at hpos
  · exact absurd hpos (lt_irrefl 0)
  · cases t with
    | positive => exact ⟨n, f, hn, huy⟩
    | negative =>
      rw [exactOf_finite, signed, neg_pos] at hpos
      exact absurd hpos (not_lt.mpr (by positivity))

theorem unpacked_mul_of_infinity (hx : unpacked x = .infinity s)
    (hy : y.isFinite = true) (hpos : 0 < exact y) :
    unpacked (x * y) = .infinity s := by
  obtain ⟨m, e, hm, huy⟩ := unpacked_of_pos hy hpos
  have hproduct : unpacked (x * y) =
      unpacked (ofUnpacked (mul .binary32 (unpacked x) (unpacked y))) := rfl
  rw [hproduct, hx, huy]
  cases s <;> exact unpacked_ofUnpacked (u := .infinity _) trivial trivial

theorem unpacked_div_of_infinity (hx : unpacked x = .infinity s)
    (hy : y.isFinite = true) (hpos : 0 < exact y) :
    unpacked (x / y) = .infinity s := by
  obtain ⟨m, e, hm, huy⟩ := unpacked_of_pos hy hpos
  have hquotient : unpacked (x / y) =
      unpacked (ofUnpacked (div .binary32 (unpacked x) (unpacked y))) := rfl
  rw [hquotient, hx, huy]
  cases s <;> exact unpacked_ofUnpacked (u := .infinity _) trivial trivial

end InfiniteOperands

/-! ## Numbers that are not negative -/

/-- A number that is not negative is finite or the positive infinity. -/
theorem zero_le_iff (x : Float32) :
    0 ≤ x ↔ (x.isFinite = true ∧ 0 ≤ exact x) ∨ unpacked x =
      .infinity .positive := by
  have hzero : unpacked 0 = .zero .positive := rfl
  by_cases hx : x.isFinite = true
  · have hnot : unpacked x ≠ .infinity .positive := by
      intro h
      rw [isFinite_iff, h] at hx
      cases hx
    rw [le_iff rfl hx, exact_zero]
    exact ⟨fun h => .inl ⟨hx, h⟩, fun h => (h.resolve_right hnot).2⟩
  · rw [or_iff_right fun h => hx h.1, le_iff_compare, hzero]
    rw [isFinite_iff] at hx
    generalize unpacked x = u at *
    cases u with
    | infinity s =>
      cases s with
      | negative => exact iff_of_false nofun nofun
      | positive => exact iff_of_true rfl rfl
    | notANumber => exact iff_of_false nofun nofun
    | zero s => exact absurd rfl hx
    | finite s m e hm => exact absurd rfl hx

theorem RoundsTo.zero_le {q : ℚ} {z : Float32} (h : RoundsTo q z) (hq : 0 ≤ q) :
    0 ≤ z := by
  rw [zero_le_iff]
  unfold RoundsTo at h
  split_ifs at h with hrange hneg
  · exact .inl ⟨h.1, h.2 ▸ nearest_nonneg hq⟩
  · exact absurd hneg hq.not_gt
  · exact .inr h

section Nonnegative

variable {x y : Float32}

theorem zero_le_add (hx : 0 ≤ x) (hy : y.isFinite = true)
    (hynonneg : 0 ≤ exact y) : 0 ≤ x + y := by
  rcases (zero_le_iff x).mp hx with ⟨hfinite, hnonneg⟩ | hinf
  · exact (add_roundsTo hfinite hy).zero_le (add_nonneg hnonneg hynonneg)
  · exact (zero_le_iff _).mpr (.inr (unpacked_add_of_infinity hinf hy))

theorem zero_le_div (hx : 0 ≤ x) (hy : y.isFinite = true) (hpos : 0 < exact y) :
    0 ≤ x / y := by
  rcases (zero_le_iff x).mp hx with ⟨hfinite, hnonneg⟩ | hinf
  · exact (div_roundsTo hfinite hy hpos.ne').zero_le
      (div_nonneg hnonneg hpos.le)
  · exact (zero_le_iff _).mpr (.inr (unpacked_div_of_infinity hinf hy hpos))

end Nonnegative

/-! ## Larger and smaller -/

section Choice

variable {a : ℚ} {s : Sign} {x y : Float32}

theorem isNaN_neg (x : Float32) : (-x).isNaN = x.isNaN := by
  change (unpacked (-x)).isNaN = (unpacked x).isNaN
  rw [unpacked_neg]
  cases unpacked x <;> rfl

theorem isNaN_of_isFinite (hx : x.isFinite = true) : x.isNaN = false := by
  change (unpacked x).isNaN = false
  rw [isFinite_iff] at hx
  generalize unpacked x = u at *
  cases u with
  | notANumber => cases hx
  | _ => rfl

theorem larger_finite (hx : x.isFinite = true) (hy : y.isFinite = true) :
    (larger x y).isFinite = true ∧
      exact (larger x y) = max (exact x) (exact y) := by
  simp only [larger, isNaN_of_isFinite hx, lt_iff hx hy, Bool.false_eq_true,
    if_false]
  split_ifs with h
  · exact ⟨hy, (max_eq_right h.le).symm⟩
  · exact ⟨hx, (max_eq_left (not_lt.mp h)).symm⟩

theorem smaller_finite (hx : x.isFinite = true) (hy : y.isFinite = true) :
    (smaller x y).isFinite = true ∧
      exact (smaller x y) = min (exact x) (exact y) := by
  simp only [smaller, isNaN_of_isFinite hx, lt_iff hy hx, Bool.false_eq_true,
    if_false]
  split_ifs with h
  · exact ⟨hy, (min_eq_right h.le).symm⟩
  · exact ⟨hx, (min_eq_left (not_lt.mp h)).symm⟩

theorem larger_zero_nonneg (x : Float32) : 0 ≤ larger x 0 := by
  have hzero : (0 : Float32) ≤ 0 :=
    (zero_le_iff 0).mpr (.inl ⟨rfl, exact_zero.ge⟩)
  unfold larger
  split_ifs with hnan hneg
  · exact hzero
  · exact hzero
  · rw [zero_le_iff]
    by_cases hx : x.isFinite = true
    · rw [neg_iff hx, not_lt] at hneg
      exact .inl ⟨hx, hneg⟩
    · have hzero : unpacked 0 = .zero .positive := rfl
      change ¬ (unpacked x).isNaN = true at hnan
      rw [lt_iff_compare, hzero] at hneg
      rw [isFinite_iff] at hx
      refine .inr ?_
      generalize unpacked x = u at *
      cases u with
      | notANumber => exact absurd rfl hnan
      | infinity s =>
        cases s with
        | positive => rfl
        | negative => exact absurd rfl hneg
      | zero s => exact absurd rfl hx
      | finite s m e hm => exact absurd rfl hx

theorem isNaN_of_infinity (hx : unpacked x = .infinity s) :
    x.isNaN = false := by
  change (unpacked x).isNaN = false
  rw [hx]
  rfl

theorem larger_zero_of_positive_infinity
    (hx : unpacked x = .infinity .positive) : larger x 0 = x := by
  have hneg : ¬ x < 0 := not_positive_infinity_lt hx
  simp only [larger, isNaN_of_infinity hx, hneg, Bool.false_eq_true, if_false]

theorem larger_zero_of_negative_infinity
    (hx : unpacked x = .infinity .negative) : larger x 0 = 0 := by
  have hnan := isNaN_of_infinity hx
  have hneg : x < 0 := by
    have hzero : unpacked 0 = .zero .positive := rfl
    rw [lt_iff_compare, hx, hzero]
    rfl
  simp only [larger, hnan, hneg, Bool.false_eq_true, if_false, if_true]

/-- A rounded result held at zero, whether or not it has overflowed below
zero. -/
theorem RoundsTo.larger_zero {q : ℚ} (h : RoundsTo q x)
    (hmost : nearest q < 2 ^ 128) :
    (larger x 0).isFinite = true ∧ exact (larger x 0) = max (nearest q) 0 := by
  unfold RoundsTo at h
  split_ifs at h with hrange hneg
  · obtain ⟨hfinite, hexact⟩ := h
    have hlarger :=
      larger_finite hfinite (show (0 : Float32).isFinite = true from rfl)
    rwa [hexact, exact_zero] at hlarger
  · have hle := nearest_mono hneg.le
    rw [nearest_zero] at hle
    rw [larger_zero_of_negative_infinity h, max_eq_right hle]
    exact ⟨rfl, exact_zero⟩
  · rw [abs_of_nonneg (nearest_nonneg (not_lt.mp hneg))] at hrange
    exact absurd hmost hrange

theorem larger_zero_le (hx : x.isFinite = true) (hle : exact x ≤ a)
    (ha : 0 ≤ a) :
    (larger x 0).isFinite = true ∧ 0 ≤ exact (larger x 0) ∧
      exact (larger x 0) ≤ a := by
  unfold larger
  rw [isNaN_of_isFinite hx, if_neg Bool.false_ne_true]
  simp only [neg_iff hx]
  split_ifs with hneg
  · exact ⟨rfl, exact_zero.ge, exact_zero.trans_le ha⟩
  · exact ⟨hx, not_lt.mp hneg, hle⟩

/-- A ceiling holds for whatever is below it, also for an infinity. -/
theorem within_smaller (hx : 0 ≤ x) (hy : y.isFinite = true)
    (hynonneg : 0 ≤ exact y) : Within (exact y) (smaller x y) := by
  have hyself : Within (exact y) y := ⟨hy, (abs_of_nonneg hynonneg).le⟩
  unfold smaller
  rcases (zero_le_iff x).mp hx with ⟨hfinite, hnonneg⟩ | hinf
  · rw [isNaN_of_isFinite hfinite, if_neg Bool.false_ne_true]
    simp only [lt_iff hy hfinite]
    split_ifs with hlt
    · exact hyself
    · exact ⟨hfinite, (abs_of_nonneg hnonneg).trans_le (not_lt.mp hlt)⟩
  · have hlt : y < x := lt_positive_infinity hy hinf
    rw [if_pos hlt, ite_self]
    exact hyself

theorem within_smaller_of_within (hx : Within a x) (hy : y.isFinite = true)
    (hynonneg : 0 ≤ exact y) : Within a (smaller x y) := by
  unfold smaller
  rw [isNaN_of_isFinite hx.isFinite, if_neg Bool.false_ne_true]
  simp only [lt_iff hy hx.isFinite]
  split_ifs with hlt
  · exact ⟨hy,
      (abs_of_nonneg hynonneg).trans_le
        (hlt.le.trans ((le_abs_self _).trans hx.abs_le))⟩
  · exact hx

end Choice

end PitchFollower.Single
