import PitchFollower.Proofs.Binary.Formats
import PitchFollower.Proofs.Single.Nearest
import PitchFollower.Single.Basic

/-!
# Exact values

A single precision number unpacks to a sign, a mantissa and an exponent.  This
module says which triples come out of a bit pattern, shows that packing such a
triple loses nothing, and gives every finite number its exact rational value.
-/

namespace PitchFollower.Single

open Float.Model (Format UnpackedFloat)
open Float.Model.UnpackedFloat

/-! ## Canonical triples -/

/-- A triple as rounding leaves it: a full mantissa, or the least exponent. -/
def Canonical : UnpackedFloat → Prop
  | .finite _ m e _ => m < 2 ^ 24 ∧ -149 ≤ e ∧ (2 ^ 23 ≤ m ∨ e = -149)
  | _ => True

/-- A triple that is not too large for a bit pattern. -/
def InRange : UnpackedFloat → Prop
  | .finite _ _ e _ => e ≤ 104
  | _ => True

/-- The sign, mantissa and exponent of a number. -/
def unpacked (x : Float32) : UnpackedFloat :=
  x.toModel.unpack

/-- The number with a given sign, mantissa and exponent. -/
def ofUnpacked (u : UnpackedFloat) : Float32 :=
  .ofModel (.pack u)

theorem unpacks_unpacked (x : Float32) :
    @Binary.Unpacks .binary32 x.toModel.toBits.toBitVec (unpacked x) :=
  Binary.unpacks_unpack _

theorem canonical_unpacked (x : Float32) : Canonical (unpacked x) := by
  have hbias : ((Format.binary32.exponentBias : ℕ) : ℤ) + (23 : ℕ) = 150 := rfl
  have hunpacks := unpacks_unpacked x
  generalize unpacked x = u at *
  cases hunpacks with
  | infinity hfull hnone => trivial
  | notANumber hfull hsome => trivial
  | zero hempty hnone => trivial
  | subnormal hempty hm =>
    refine ⟨?_, hbias ▸ (by decide), .inr (hbias ▸ (by decide))⟩
    exact (BitVec.isLt _).trans (by norm_num)
  | normal hfull hsome hm =>
    generalize @unpackExponent .binary32 x.toModel.toBits.toBitVec = e at *
    generalize @unpackMantissa .binary32 x.toModel.toBits.toBitVec = m at *
    have hpos : e.toNat ≠ 0 := fun h => hsome (BitVec.eq_of_toNat_eq h)
    have hm : m.toNat < 2 ^ 23 := m.isLt
    refine ⟨?_, ?_, .inl (Nat.le_add_right _ _)⟩
    · change 2 ^ 23 + m.toNat < 2 ^ 24
      omega
    · change -149 ≤ (e.toNat : ℤ) - (_ + (23 : ℕ))
      rw [hbias]
      omega

theorem inRange_unpacked (x : Float32) : InRange (unpacked x) := by
  have hbias : ((Format.binary32.exponentBias : ℕ) : ℤ) + (23 : ℕ) = 150 := rfl
  have hunpacks := unpacks_unpacked x
  generalize unpacked x = u at *
  cases hunpacks with
  | infinity hfull hnone => trivial
  | notANumber hfull hsome => trivial
  | zero hempty hnone => trivial
  | subnormal hempty hm =>
    change 1 - (_ + (23 : ℕ) : ℤ) ≤ 104
    rw [hbias]
    decide
  | normal hfull hsome hm =>
    generalize @unpackExponent .binary32 x.toModel.toBits.toBitVec = e at *
    have hlt : e.toNat ≠ 255 := fun h => hfull (BitVec.eq_of_toNat_eq h)
    have he : e.toNat < 256 := e.isLt
    change (e.toNat : ℤ) - (_ + (23 : ℕ)) ≤ 104
    rw [hbias]
    omega

/-! ## Packing and unpacking -/

/-- Packing a canonical triple in range loses nothing. -/
theorem unpacked_ofUnpacked
    {u : UnpackedFloat} (hu : Canonical u) (hrange : InRange u) :
    unpacked (ofUnpacked u) = u := by
  change unpack .binary32 (pack .binary32 u) = u
  cases u with
  | infinity s => cases s <;> rfl
  | notANumber => rfl
  | zero s => cases s <;> rfl
  | finite s m e hm =>
    obtain ⟨hhigh, hleast, hfull⟩ := hu
    by_cases hlow : 2 ^ 23 ≤ m
    · have hmost : e + 23 ≤ 127 := add_le_of_le_sub_right hrange
      exact Binary.unpack_pack_of_full hm hlow hhigh hleast hmost
    · obtain rfl := hfull.resolve_left hlow
      have hbias : 0 < Format.binary32.exponentBias := by decide
      exact Binary.unpack_pack_of_least hbias hm (not_le.mp hlow)

/-- A triple that is too large packs to an infinity. -/
theorem unpacked_ofUnpacked_of_large
    {s : Sign} {m : ℕ} {e : ℤ} (hm : 0 < m) (hlarge : 104 < e) :
    unpacked (ofUnpacked (.finite s m e hm)) = .infinity s := by
  have hbias : e + Format.binary32.exponentBias + (23 : ℕ) = e + 150 := by
    simp only [Format.exponentBias]
    norm_num
    omega
  have hroom : 2 ^ Format.binary32.exponentBits ≤ (e + 150).toNat + 1 := by
    norm_num
    omega
  change unpack .binary32 (pack .binary32 (.finite s m e hm)) = _
  rw [Binary.pack_finite, hbias, if_pos hroom]
  cases s <;> rfl

/-! ## Exact values -/

/-- The exact value of a triple, and zero for what is not finite. -/
def exactOf : UnpackedFloat → ℚ
  | .finite s m e _ => s.apply m * 2 ^ e
  | _ => 0

/-- The exact value of a finite number. -/
def exact (x : Float32) : ℚ :=
  exactOf (unpacked x)

/-- A sign on an exact value. -/
def signed (s : Sign) (q : ℚ) : ℚ :=
  match s with
  | .negative => -q
  | .positive => q

theorem exactOf_finite
    (s : Sign) {m : ℕ} (e : ℤ) (hm : 0 < m) :
    exactOf (.finite s m e hm) = signed s (m * 2 ^ e) := by
  change ((s.apply m : ℤ) : ℚ) * 2 ^ e = signed s (m * 2 ^ e)
  cases s <;> simp [signed, Sign.apply]

theorem exactOf_zero (s : Sign) : exactOf (.zero s) = 0 :=
  rfl

theorem nearest_signed (s : Sign) (q : ℚ) :
    nearest (signed s q) = signed s (nearest q) := by
  cases s
  · exact nearest_neg q
  · rfl

theorem abs_signed (s : Sign) (q : ℚ) : |signed s q| = |q| := by
  cases s
  · exact abs_neg q
  · rfl

theorem isFinite_iff (x : Float32) :
    x.isFinite = true ↔ (unpacked x).isFinite = true :=
  Iff.rfl

theorem zero_or_finite_of_isFinite {x : Float32} (hx : x.isFinite = true) :
    (∃ s, unpacked x = .zero s) ∨
      ∃ s m e hm, unpacked x = .finite s m e hm := by
  rw [isFinite_iff] at hx
  generalize unpacked x = u at *
  cases u with
  | infinity s => cases hx
  | notANumber => cases hx
  | zero s => exact Or.inl ⟨s, rfl⟩
  | finite s m e hm => exact Or.inr ⟨s, m, e, hm, rfl⟩

/-- What rounds an exact value: a canonical triple for the nearest number. -/
structure IsNearest (u : UnpackedFloat) (q : ℚ) : Prop where
  canonical : Canonical u
  isFinite : u.isFinite = true
  exactOf_eq : exactOf u = nearest q

theorem onGrid_exactOf {u : UnpackedFloat} (hu : Canonical u) :
    OnGrid (exactOf u) := by
  cases u with
  | finite s m e hm =>
    obtain ⟨hhigh, hleast, -⟩ := hu
    refine ⟨s.apply m, e, ?_, hleast, rfl⟩
    cases s <;> simp [Sign.apply] <;> exact_mod_cast hhigh
  | _ =>
    have hzero : (0 : ℚ) = (0 : ℤ) * 2 ^ (0 : ℤ) := by norm_num
    exact ⟨0, 0, by norm_num, by norm_num, hzero⟩

theorem onGrid_exact (x : Float32) : OnGrid (exact x) :=
  onGrid_exactOf (canonical_unpacked x)

/-- A canonical triple needs no rounding. -/
theorem isNearest_exactOf
    {u : UnpackedFloat} (hu : Canonical u) (hfinite : u.isFinite = true) :
    IsNearest u (exactOf u) :=
  ⟨hu, hfinite, (nearest_of_onGrid (onGrid_exactOf hu)).symm⟩

theorem isNearest_zero (s : Sign) : IsNearest (.zero s) 0 :=
  ⟨trivial, rfl, nearest_zero.symm⟩

/-- The exact value of a canonical triple tells whether it is in range. -/
theorem abs_exactOf_lt_iff {s : Sign} {m : ℕ} {e : ℤ} {hm : 0 < m}
    (hu : Canonical (.finite s m e hm)) :
    |exactOf (.finite s m e hm)| < 2 ^ 128 ↔ e ≤ 104 := by
  obtain ⟨hhigh, hleast, hfull⟩ := hu
  have hpos := two_zpow_pos e
  rw [exactOf_finite, abs_signed, abs_of_nonneg (by positivity)]
  constructor
  · intro hlt
    by_contra hlarge
    have hlow : (2 : ℚ) ^ 23 ≤ m := by
      exact_mod_cast hfull.resolve_right (by omega)
    have hpow : (2 : ℚ) ^ (105 : ℤ) ≤ 2 ^ e :=
      zpow_le_zpow_right₀ (by norm_num) (by omega)
    have := mul_le_mul hlow hpow (by positivity) (by positivity)
    norm_num at this hlt
    linarith
  · intro hsmall
    have hhigh' : (m : ℚ) < 2 ^ 24 := by exact_mod_cast hhigh
    have hpow : (2 : ℚ) ^ e ≤ 2 ^ (104 : ℤ) :=
      zpow_le_zpow_right₀ (by norm_num) hsmall
    calc (m : ℚ) * 2 ^ e < 2 ^ 24 * 2 ^ e := by gcongr
      _ ≤ 2 ^ 24 * 2 ^ (104 : ℤ) := by gcongr
      _ = 2 ^ 128 := by norm_num

theorem abs_exact_lt (x : Float32) : |exact x| < 2 ^ 128 := by
  have hcanonical := canonical_unpacked x
  have hrange := inRange_unpacked x
  unfold exact
  generalize unpacked x = u at *
  cases u with
  | finite s m e hm => exact (abs_exactOf_lt_iff hcanonical).mpr hrange
  | _ =>
    change |(0 : ℚ)| < 2 ^ 128
    norm_num

end PitchFollower.Single
