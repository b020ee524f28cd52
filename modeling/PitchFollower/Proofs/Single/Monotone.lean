import PitchFollower.Proofs.Single.Bits
import PitchFollower.Proofs.Single.Conversions

/-!
# Operations that keep the order

An operation that rounds an exact result once keeps the order of its operands if
the exact result does.  Results out of range are infinite on the right side, and
infinite operands stay what they are, so this holds for all numbers but a NaN.
-/

namespace PitchFollower.Single

open Float.Model (UnpackedFloat)
open Float.Model.UnpackedFloat

/-! ## The order of all numbers -/

section Infinite

variable {x y : Float32} {s : Sign}

theorem isNaN_eq_false_iff (x : Float32) :
    x.isNaN = false ↔ x.isFinite = true ∨ ∃ s, unpacked x = .infinity s := by
  change (unpacked x).isNaN = false ↔ (unpacked x).isFinite = true ∨ _
  cases unpacked x with
  | notANumber => exact iff_of_false nofun (by rintro (h | ⟨s, h⟩) <;> cases h)
  | infinity s => exact iff_of_true rfl (.inr ⟨s, rfl⟩)
  | zero s => exact iff_of_true rfl (.inl rfl)
  | finite s m e hm => exact iff_of_true rfl (.inl rfl)

theorem negative_infinity_le (hx : unpacked x = .infinity .negative)
    (hy : y.isNaN = false) : x ≤ y := by
  rw [le_iff_compare, hx]
  rcases (isNaN_eq_false_iff y).mp hy with hy | ⟨s, hy⟩
  · rcases zero_or_finite_of_isFinite hy with ⟨s, huy⟩ | ⟨s, m, e, hm, huy⟩ <;>
      rw [huy] <;> rfl
  · rw [hy]
    cases s <;> rfl

theorem le_positive_infinity (hx : x.isNaN = false)
    (hy : unpacked y = .infinity .positive) : x ≤ y := by
  rw [le_iff_compare, hy]
  rcases (isNaN_eq_false_iff x).mp hx with hx | ⟨s, hx⟩
  · rcases zero_or_finite_of_isFinite hx with ⟨s, hux⟩ | ⟨s, m, e, hm, hux⟩ <;>
      rw [hux] <;> rfl
  · rw [hx]
    cases s <;> rfl

theorem isNaN_of_le (h : x ≤ y) : x.isNaN = false ∧ y.isNaN = false := by
  rw [le_iff_compare] at h
  change (unpacked x).isNaN = false ∧ (unpacked y).isNaN = false
  cases hux : unpacked x <;> cases huy : unpacked y <;> rw [hux, huy] at h <;>
    first | exact ⟨rfl, rfl⟩ | cases h

/-- One number is at most another one if they are infinite in the right
direction or their exact values are in order. -/
theorem le_cases (h : x ≤ y) :
    (unpacked x = .infinity .negative ∧ y.isNaN = false) ∨
      (x.isNaN = false ∧ unpacked y = .infinity .positive) ∨
      (x.isFinite = true ∧ y.isFinite = true ∧ exact x ≤ exact y) := by
  obtain ⟨hx, hy⟩ := isNaN_of_le h
  by_cases hlow : unpacked x = .infinity .negative
  · exact .inl ⟨hlow, hy⟩
  by_cases hhigh : unpacked y = .infinity .positive
  · exact .inr (.inl ⟨hx, hhigh⟩)
  have hxfinite : x.isFinite = true := by
    refine ((isNaN_eq_false_iff x).mp hx).resolve_right ?_
    rintro ⟨_ | _, hux⟩
    · exact hlow hux
    · rw [le_iff_compare, hux] at h
      rcases (isNaN_eq_false_iff y).mp hy with hy | ⟨_ | _, huy⟩
      · rcases zero_or_finite_of_isFinite hy with ⟨t, huy⟩ | ⟨t, m, e, hm,
          huy⟩ <;>
          rw [huy] at h <;> cases h
      · rw [huy] at h
        exact absurd h (by decide)
      · exact hhigh huy
  have hyfinite : y.isFinite = true := by
    refine ((isNaN_eq_false_iff y).mp hy).resolve_right ?_
    rintro ⟨_ | _, huy⟩
    · rw [le_iff_compare, huy] at h
      rcases zero_or_finite_of_isFinite hxfinite with ⟨t, hux⟩ | ⟨t, m, e, hm,
        hux⟩ <;>
        rw [hux] at h <;> cases h
    · exact hhigh huy
  exact .inr (.inr ⟨hxfinite, hyfinite, (le_iff hxfinite hyfinite).mp h⟩)

theorem RoundsTo.isNaN {q : ℚ} {z : Float32} (h : RoundsTo q z) :
    z.isNaN = false := by
  rcases h.cases with ⟨-, hz⟩ | ⟨-, hz⟩ | ⟨-, hz, -⟩
  · exact isNaN_of_infinity hz
  · exact isNaN_of_infinity hz
  · exact isNaN_of_isFinite hz

/-- Rounding keeps the order, also where it leaves the range. -/
theorem RoundsTo.mono {q r : ℚ} {z w : Float32} (hz : RoundsTo q z)
    (hw : RoundsTo r w) (h : q ≤ r) : z ≤ w := by
  have hnearest := nearest_mono h
  rcases hw.cases with ⟨hr, -⟩ | ⟨-, hhigh⟩ | ⟨hr, hwfinite, hwexact⟩
  · rcases hz.cases with ⟨-, hlow⟩ | ⟨hq, -⟩ | ⟨hq, -⟩
    · exact negative_infinity_le hlow hw.isNaN
    · linarith
    · linarith [neg_lt_of_abs_lt hq]
  · exact le_positive_infinity hz.isNaN hhigh
  · rcases hz.cases with ⟨-, hlow⟩ | ⟨hq, -⟩ | ⟨-, hzfinite, hzexact⟩
    · exact negative_infinity_le hlow hw.isNaN
    · linarith [lt_of_abs_lt hr]
    · exact (le_iff hzfinite hwfinite).mpr (by rwa [hzexact, hwexact])

end Infinite

/-! ## Operations -/

/-- An operation on one number that rounds the exact result `φ` and leaves
infinities as they are. -/
structure Follows (φ : ℚ → ℚ) (f : Float32 → Float32) : Prop where
  finite : ∀ x : Float32, x.isFinite = true → RoundsTo (φ (exact x)) (f x)
  infinite : ∀ x s, unpacked x = .infinity s → unpacked (f x) = .infinity s

namespace Follows

variable {φ ψ : ℚ → ℚ} {f g : Float32 → Float32} {x y : Float32}

theorem isNaN (hf : Follows φ f) (hx : x.isNaN = false) :
    (f x).isNaN = false := by
  rcases (isNaN_eq_false_iff x).mp hx with hx | ⟨s, hx⟩
  · exact (hf.finite x hx).isNaN
  · exact isNaN_of_infinity (hf.infinite x s hx)

/-- Operations whose exact results are in order keep the order of their
operands. -/
theorem mono (hf : Follows φ f) (hg : Follows ψ g)
    (hle : ∀ q r, q ≤ r → φ q ≤ ψ r) (h : x ≤ y) : f x ≤ g y := by
  rcases le_cases h with ⟨hx, hy⟩ | ⟨hx, hy⟩ | ⟨hx, hy, hexact⟩
  · exact negative_infinity_le (hf.infinite x _ hx) (hg.isNaN hy)
  · exact le_positive_infinity (hf.isNaN hx) (hg.infinite y _ hy)
  · exact (hf.finite x hx).mono (hg.finite y hy) (hle _ _ hexact)

theorem add (hy : y.isFinite = true) : Follows (· + exact y) (· + y) where
  finite _ hx := add_roundsTo hx hy
  infinite _ _ hx := unpacked_add_of_infinity hx hy

theorem mul (hy : y.isFinite = true) (hpos : 0 < exact y) :
    Follows (· * exact y) (· * y) where
  finite _ hx := mul_roundsTo hx hy
  infinite _ _ hx := unpacked_mul_of_infinity hx hy hpos

theorem div (hy : y.isFinite = true) (hpos : 0 < exact y) :
    Follows (· / exact y) (· / y) where
  finite _ hx := div_roundsTo hx hy hpos.ne'
  infinite _ _ hx := unpacked_div_of_infinity hx hy hpos

end Follows

section Operations

variable {x y a b : Float32}

/-- Finite numbers in order. -/
structure InOrder (a b : Float32) : Prop where
  left : a.isFinite = true
  right : b.isFinite = true
  le : a ≤ b

theorem InOrder.add_le_add (hab : InOrder a b) (h : x ≤ y) : x + a ≤ y + b := by
  have hexact := (le_iff hab.left hab.right).mp hab.le
  have hsum := (Follows.add hab.left).mono (Follows.add hab.right)
    (fun _ _ hle => by gcongr) h
  exact hsum

theorem mul_le_mul_of_pos (ha : a.isFinite = true) (hpos : 0 < exact a)
    (h : x ≤ y) : x * a ≤ y * a := by
  have hproduct := (Follows.mul ha hpos).mono (Follows.mul ha hpos)
    (fun _ _ hle => mul_le_mul_of_nonneg_right hle hpos.le) h
  exact hproduct

theorem div_le_div_of_pos (ha : a.isFinite = true) (hpos : 0 < exact a)
    (h : x ≤ y) : x / a ≤ y / a := by
  have hquotient := (Follows.div ha hpos).mono (Follows.div ha hpos)
    (fun _ _ hle => div_le_div_of_nonneg_right hle hpos.le) h
  exact hquotient

/-- A sum of larger terms is larger, whatever it overflows to on the way. -/
theorem foldl_add_mono {xs ys : List Float32} (h : List.Forall₂ InOrder xs ys)
    (hxy : x ≤ y) : xs.foldl (· + ·) x ≤ ys.foldl (· + ·) y := by
  induction h generalizing x y with
  | nil => exact hxy
  | cons hterm _ ih => exact ih (hterm.add_le_add hxy)

theorem sum_mono {xs ys : Array Float32}
    (h : List.Forall₂ InOrder xs.toList ys.toList) : sum xs ≤ sum ys := by
  have hstart : (-0 : Float32) ≤ -0 := by decide +kernel
  unfold sum
  rw [← Array.foldl_toList, ← Array.foldl_toList]
  exact foldl_add_mono h hstart

end Operations

/-! ## Conversions -/

section Conversions

variable {x y : Float32}

theorem eq_ofUnpacked {u} (hx : unpacked x = u) : x = ofUnpacked u :=
  by rw [← hx, ofUnpacked_unpacked]

theorem abs_wholePart_le (x : Float32) : |wholePart x| ≤ 2 ^ 64 - 1 := by
  have hneg := (-x).toUInt64.toNat_lt
  have hpos := x.toUInt64.toNat_lt
  unfold wholePart
  rw [abs_le]
  split_ifs <;> omega

theorem wholePart_mono (h : x ≤ y) : wholePart x ≤ wholePart y := by
  rcases le_cases h with ⟨hx, -⟩ | ⟨-, hy⟩ | ⟨hx, hy, hexact⟩
  · have hleast : wholePart (ofUnpacked (.infinity .negative)) =
        -(2 ^ 64 - 1) := by decide +kernel
    rw [eq_ofUnpacked hx, hleast]
    exact neg_le_of_abs_le (abs_wholePart_le y)
  · have hmost : wholePart (ofUnpacked (.infinity .positive)) = 2 ^ 64 - 1 := by
      decide +kernel
    rw [eq_ofUnpacked hy, hmost]
    exact le_of_abs_le (abs_wholePart_le x)
  · have hfloor : ⌊exact x⌋ ≤ ⌊exact y⌋ := Int.floor_le_floor hexact
    have hfloor' : ⌊-exact y⌋ ≤ ⌊-exact x⌋ :=
      Int.floor_le_floor (neg_le_neg hexact)
    rw [wholePart_eq_min hx, wholePart_eq_min hy]
    split_ifs with hxneg hyneg hyneg
    · omega
    · have := Int.floor_nonneg.mpr (neg_nonneg.mpr hxneg.le)
      have := Int.floor_nonneg.mpr (not_lt.mp hyneg)
      omega
    · linarith
    · omega

theorem wholePart32_mono (h : x ≤ y) : wholePart32 x ≤ wholePart32 y :=
  max_le_max le_rfl (min_le_min le_rfl (wholePart_mono h))

namespace Approximate

/-- Rounding adds half a unit to a magnitude and keeps the sign in front of
it. -/
theorem withSignOf_half_cases (x : Float32) :
    (withSignOf x 0.5 = -0.5 ∧ x = -x.abs) ∨
      (withSignOf x 0.5 = 0.5 ∧ x = x.abs) := by
  have hsigned := signed_abs_eq x
  unfold withSignOf
  rcases signBit_cases x with hbit | hbit <;> rw [hbit] at hsigned ⊢
  · exact .inl ⟨by decide +kernel,
      by rw [if_pos (by decide)] at hsigned; exact hsigned.symm⟩
  · exact .inr ⟨by decide +kernel,
      by rw [if_neg (by decide)] at hsigned; exact hsigned.symm⟩

theorem exact_round_of_zero (hx : x.isFinite = true) (hzero : exact x = 0) :
    exact (round x) = 0 := by
  have hquarter : Within ((1 : ℕ) - 3 / 4) x := ⟨hx, by rw [hzero]; norm_num⟩
  obtain ⟨i, hi, -, hexact⟩ := exists_round_eq le_rfl (by norm_num) hquarter
  obtain rfl : i = 0 := by
    rw [abs_lt] at hi
    omega
  exact_mod_cast hexact

/-- Rounding to whole numbers keeps the order.  The two zeros are rounded from
different sides, but to zero, and no other numbers are in order with their signs
the other way round. -/
theorem exact_round_mono (h : x ≤ y) : exact (round x) ≤ exact (round y) := by
  have hsum (hhalf : withSignOf x 0.5 ≤ withSignOf y 0.5) : exact (round x) ≤
      exact (round y) :=
    exact_ofInt_mono (natAbs_wholePart32_lt _) (natAbs_wholePart32_lt _)
      (wholePart32_mono
        (InOrder.add_le_add ⟨(within_withSignOf_half x).isFinite,
        (within_withSignOf_half y).isFinite, hhalf⟩ h))
  rcases withSignOf_half_cases x with ⟨hx, hxabs⟩ | ⟨hx, hxabs⟩ <;>
    rcases withSignOf_half_cases y with ⟨hy, hyabs⟩ | ⟨hy, hyabs⟩
  · exact hsum (by rw [hx, hy]; decide +kernel)
  · exact hsum (by rw [hx, hy]; decide +kernel)
  · rcases le_cases h with ⟨hinf, -⟩ | ⟨-, hinf⟩ | ⟨hxfinite, hyfinite, hexact⟩
    · have habs := congrArg unpacked hxabs
      rw [unpacked_abs, hinf] at habs
      cases habs
    · have habs := congrArg unpacked hyabs
      rw [unpacked_neg, unpacked_abs, hinf] at habs
      cases habs
    · have hxnonneg : 0 ≤ exact x := by
        rw [hxabs, exact_abs]
        exact abs_nonneg _
      have hynonpos : exact y ≤ 0 := by
        rw [hyabs, exact_neg, exact_abs]
        exact neg_nonpos.mpr (abs_nonneg _)
      rw [exact_round_of_zero hxfinite (by linarith),
        exact_round_of_zero hyfinite (by linarith)]
  · exact hsum (by rw [hx, hy]; decide +kernel)

end Approximate

end Conversions

end PitchFollower.Single
