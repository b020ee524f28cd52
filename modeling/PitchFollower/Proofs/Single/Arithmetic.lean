import PitchFollower.Proofs.Single.Rounding

/-!
# Arithmetic by exact values

Sums, differences and quotients of finite numbers are their exact results,
rounded once; a result out of range is infinite.
-/

namespace PitchFollower.Single

open Float.Model (Format UnpackedFloat)
open Float.Model.UnpackedFloat

/-! ## Rounded results -/

/-- `z` is the exact result `q`, rounded: the nearest number, or an infinity if
that is out of range. -/
def RoundsTo (q : ℚ) (z : Float32) : Prop :=
  if |nearest q| < 2 ^ 128 then z.isFinite = true ∧ exact z = nearest q
  else unpacked z = .infinity (if q < 0 then .negative else .positive)

theorem roundsTo_ofUnpacked
    {u : UnpackedFloat} {q : ℚ} (hu : IsNearest u q) :
    RoundsTo q (ofUnpacked u) := by
  obtain ⟨hcanonical, hfinite, hexact⟩ := hu
  unfold RoundsTo
  rw [← hexact, isFinite_iff, exact]
  cases u with
  | infinity s => cases hfinite
  | notANumber => cases hfinite
  | zero s =>
    rw [unpacked_ofUnpacked hcanonical trivial, exactOf_zero, abs_zero,
      if_pos (by norm_num)]
    exact ⟨rfl, rfl⟩
  | finite s m e hm =>
    have hpos : (0 : ℚ) < m * 2 ^ e := by positivity
    have hlt := abs_exactOf_lt_iff hcanonical
    by_cases hrange : e ≤ 104
    · rw [if_pos (hlt.mpr hrange), unpacked_ofUnpacked hcanonical hrange]
      exact ⟨rfl, rfl⟩
    rw [if_neg (mt hlt.mp hrange),
      unpacked_ofUnpacked_of_large hm (not_le.mp hrange)]
    rw [exactOf_finite] at hexact
    split_ifs with hneg
    · cases s with
      | negative => rfl
      | positive =>
        have := nearest_mono hneg.le
        rw [nearest_zero, ← hexact, signed] at this
        exact absurd hpos (not_lt.mpr this)
    · cases s with
      | positive => rfl
      | negative =>
        have := nearest_nonneg (not_lt.mp hneg)
        rw [← hexact, signed] at this
        exact absurd hpos (not_lt.mpr (neg_nonneg.mp this))

theorem RoundsTo.finite_of_abs_le
    {q g : ℚ} {z : Float32} (h : RoundsTo q z) (hg : OnGrid g)
    (hgrid : g < 2 ^ 128) (hq : |q| ≤ g) :
    z.isFinite = true ∧ exact z = nearest q := by
  have habs : |nearest q| < 2 ^ 128 := by
    refine lt_of_le_of_lt ?_ hgrid
    rw [abs_le] at hq ⊢
    constructor
    · have := hg.nearest_le (q := -q) (by linarith)
      rw [nearest_neg] at this
      linarith
    · exact hg.nearest_le hq.2
  rwa [RoundsTo, if_pos habs] at h

/-! ## Signs -/

theorem signed_neg (s : Sign) (q : ℚ) : signed (-s) q = -signed s q := by
  cases s
  · exact (neg_neg q).symm
  · rfl

theorem canonical_neg {u : UnpackedFloat} (hu : Canonical u) :
    Canonical u.neg := by
  cases u <;> exact hu

theorem inRange_neg {u : UnpackedFloat} (hu : InRange u) : InRange u.neg := by
  cases u <;> exact hu

theorem unpacked_neg (x : Float32) : unpacked (-x) = (unpacked x).neg :=
  unpacked_ofUnpacked (canonical_neg (canonical_unpacked x))
    (inRange_neg (inRange_unpacked x))

theorem isFinite_neg (x : Float32) : (-x).isFinite = x.isFinite := by
  change (unpacked (-x)).isFinite = (unpacked x).isFinite
  rw [unpacked_neg]
  cases unpacked x <;> rfl

theorem exact_neg (x : Float32) : exact (-x) = -exact x := by
  rw [exact, exact, unpacked_neg]
  cases unpacked x with
  | finite s m e hm =>
    change exactOf (.finite (-s) m e hm) = -exactOf (.finite s m e hm)
    rw [exactOf_finite, exactOf_finite, signed_neg]
  | _ => exact neg_zero.symm

/-! ## Sums and differences -/

theorem apply_decreaseExponent
    (s : Sign) (m : ℕ) {e t : ℤ} (ht : t ≤ e) :
    (s.apply (decreaseExponent m e t).1 : ℚ) * 2 ^ t = s.apply m * 2 ^ e := by
  obtain ⟨k, hk⟩ := Int.eq_ofNat_of_zero_le (sub_nonneg.mpr ht)
  obtain rfl : e = t + k := by omega
  rw [decreaseExponent_fst m (k := k) (by omega), zpow_add₀ (by norm_num),
    zpow_natCast]
  cases s <;> simp only [Sign.apply] <;> push_cast <;> ring

theorem add_roundsTo
    {x y : Float32} (hx : x.isFinite = true) (hy : y.isFinite = true) :
    RoundsTo (exact x + exact y) (x + y) := by
  change RoundsTo _ (ofUnpacked (add .binary32 (unpacked x) (unpacked y)))
  apply roundsTo_ofUnpacked
  have hcx := canonical_unpacked x
  have hcy := canonical_unpacked y
  unfold exact
  rcases zero_or_finite_of_isFinite hx with ⟨s, hux⟩ | ⟨s, m, e, hm, hux⟩
  · rcases zero_or_finite_of_isFinite hy with ⟨s', huy⟩ | ⟨s', n, f, hn, huy⟩
    · rw [hux, huy, exactOf_zero, exactOf_zero, add_zero]
      change IsNearest (if s == s' then .zero s else .zero .positive) 0
      split_ifs <;> exact isNearest_zero _
    · have hsum : add .binary32 (.zero s) (unpacked y) = unpacked y := by
        rw [huy]
        rfl
      rw [hux, exactOf_zero, zero_add, hsum]
      exact isNearest_exactOf hcy hy
  · rcases zero_or_finite_of_isFinite hy with ⟨s', huy⟩ | ⟨s', n, f, hn, huy⟩
    · have hsum : add .binary32 (unpacked x) (.zero s') = unpacked x := by
        rw [hux]
        rfl
      rw [huy, exactOf_zero, add_zero, hsum]
      exact isNearest_exactOf hcx hx
    · rw [hux, huy]
      have hsum :=
        isNearest_normalize
          (s.apply (decreaseExponent m e (min e f)).1 +
            s'.apply (decreaseExponent n f (min e f)).1)
          (min e f) .positive
      rw [Int.cast_add, add_mul, apply_decreaseExponent s m (min_le_left e f),
        apply_decreaseExponent s' n (min_le_right e f)] at hsum
      exact hsum

theorem apply_neg (s : Sign) (n : ℤ) : (-s).apply n = -s.apply n := by
  cases s
  · exact (neg_neg n).symm
  · rfl

theorem sub_unpacked (u v : UnpackedFloat) :
    sub .binary32 u v = add .binary32 u v.neg := by
  cases u with
  | finite s m e hm =>
    cases v with
    | finite s' n f hn =>
      change normalize .binary32 (s.apply _ - s'.apply _) (min e f) .positive =
        normalize .binary32 (s.apply _ + (-s').apply _) (min e f) .positive
      rw [apply_neg, sub_eq_add_neg]
    | _ => rfl
  | _ => cases v <;> rfl

/-- Subtracting is adding the number with the other sign, bit by bit. -/
theorem single_sub_eq_add_neg (x y : Float32) : x - y = x + -y := by
  change ofUnpacked (sub .binary32 (unpacked x) (unpacked y)) =
    ofUnpacked (add .binary32 (unpacked x) (unpacked (-y)))
  rw [unpacked_neg, sub_unpacked]

theorem sub_roundsTo
    {x y : Float32} (hx : x.isFinite = true) (hy : y.isFinite = true) :
    RoundsTo (exact x - exact y) (x - y) := by
  rw [single_sub_eq_add_neg, sub_eq_add_neg, ← exact_neg]
  exact add_roundsTo hx (isFinite_neg y ▸ hy)

/-! ## Products -/

theorem signed_mul (s t : Sign) (q r : ℚ) :
    signed (s * t) (q * r) = signed s q * signed t r := by
  cases s <;> cases t
  · exact (neg_mul_neg q r).symm
  · exact (neg_mul q r).symm
  · exact (mul_neg q r).symm
  · rfl

/-- A product has all the places it needs: a factor with a full mantissa makes
it long enough, and two factors without one leave it below the least place. -/
theorem exponent_le_lastPlace_mul
    {s t : Sign} {m n : ℕ} {e f : ℤ} {hm : 0 < m} {hn : 0 < n}
    (hx : Canonical (.finite s m e hm)) (hy : Canonical (.finite t n f hn)) :
    e + f ≤ lastPlace (((m * n : ℕ) : ℚ) * 2 ^ (e + f)) := by
  have hpos : (0 : ℚ) < (m * n : ℕ) := by exact_mod_cast Nat.mul_pos hm hn
  rw [lastPlace, abs_of_pos (mul_pos hpos (two_zpow_pos _)), log_mul_zpow hpos]
  by_cases hfull : 2 ^ 23 ≤ m * n
  · have hlog : (23 : ℤ) ≤ Int.log 2 ((m * n : ℕ) : ℚ) := by
      rw [← Int.zpow_le_iff_le_log (by norm_num) hpos]
      exact_mod_cast hfull
    omega
  · have hleft : e = -149 := hx.2.2.resolve_left fun h =>
      hfull (h.trans (Nat.le_mul_of_pos_right m hn))
    have hright : f = -149 := hy.2.2.resolve_left fun h =>
      hfull (h.trans (Nat.le_mul_of_pos_left n hm))
    omega

theorem mul_roundsTo
    {x y : Float32} (hx : x.isFinite = true) (hy : y.isFinite = true) :
    RoundsTo (exact x * exact y) (x * y) := by
  change RoundsTo _ (ofUnpacked (mul .binary32 (unpacked x) (unpacked y)))
  apply roundsTo_ofUnpacked
  have hcx := canonical_unpacked x
  have hcy := canonical_unpacked y
  unfold exact
  rcases zero_or_finite_of_isFinite hx with ⟨s, hux⟩ | ⟨s, m, e, hm, hux⟩
  · rcases zero_or_finite_of_isFinite hy with ⟨s', huy⟩ | ⟨s', n, f, hn,
      huy⟩ <;>
      rw [hux, huy, exactOf_zero, zero_mul] <;> exact isNearest_zero _
  · rcases zero_or_finite_of_isFinite hy with ⟨s', huy⟩ | ⟨s', n, f, hn, huy⟩
    · rw [hux, huy, exactOf_zero, mul_zero]
      exact isNearest_zero _
    · have hpos : (0 : ℚ) < (m * n : ℕ) := by exact_mod_cast Nat.mul_pos hm hn
      have hspec := isNearest_roundWithAccuracy (s := s * s') (e := e + f) hpos
        (standsFor_exact (m * n)) (.inl (Nat.mul_pos hm hn).ne')
        (exponent_le_lastPlace_mul (hux ▸ hcx) (huy ▸ hcy))
      have hexact : ((m * n : ℕ) : ℚ) * 2 ^ (e + f) =
          m * 2 ^ e * (n * 2 ^ f) := by
        rw [zpow_add₀ (by norm_num)]
        push_cast
        ring
      rw [hux, huy, exactOf_finite, exactOf_finite, ← signed_mul, ← hexact]
      exact hspec

/-! ## Quotients -/

theorem signed_div (s t : Sign) (q r : ℚ) :
    signed (s / t) (q / r) = signed s q / signed t r := by
  cases s <;> cases t
  · exact (neg_div_neg_eq q r).symm
  · exact (neg_div r q).symm
  · exact (div_neg q).symm
  · rfl

theorem div_roundsTo {x y : Float32} (hx : x.isFinite = true)
    (hy : y.isFinite = true) (hzero : exact y ≠ 0) :
    RoundsTo (exact x / exact y) (x / y) := by
  change RoundsTo _ (ofUnpacked (div .binary32 (unpacked x) (unpacked y)))
  apply roundsTo_ofUnpacked
  unfold exact at *
  rcases zero_or_finite_of_isFinite hy with ⟨s', huy⟩ | ⟨s', n, f, hn, huy⟩
  · exact absurd (congrArg exactOf huy) hzero
  · rcases zero_or_finite_of_isFinite hx with ⟨s, hux⟩ | ⟨s, m, e, hm, hux⟩
    · rw [hux, huy, exactOf_zero, zero_div]
      exact isNearest_zero _
    · rw [hux, huy, exactOf_finite, exactOf_finite, ← signed_div]
      exact isNearest_divCore (s / s') e f hm hn

/-- A finite number divided by an infinite one is zero. -/
theorem div_infinity {x y : Float32} {s : Sign} (hx : x.isFinite = true)
    (hy : unpacked y = .infinity s) :
    (x / y).isFinite = true ∧ exact (x / y) = 0 := by
  have hdiv : ∃ t, x / y = ofUnpacked (.zero t) := by
    change ∃ t, ofUnpacked (div .binary32 (unpacked x) (unpacked y)) =
      ofUnpacked (.zero t)
    rcases zero_or_finite_of_isFinite hx with ⟨s', hux⟩ | ⟨s', m, e, hm,
      hux⟩ <;>
      rw [hux, hy] <;> exact ⟨s' / s, rfl⟩
  obtain ⟨t, hdiv⟩ := hdiv
  have hzero : unpacked (x / y) = .zero t :=
    hdiv ▸ unpacked_ofUnpacked trivial trivial
  rw [isFinite_iff, exact, hzero]
  exact ⟨rfl, rfl⟩

end PitchFollower.Single
