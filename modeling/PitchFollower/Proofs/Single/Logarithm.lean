import PitchFollower.Proofs.Single.Bits
import PitchFollower.Proofs.Single.Conversions

/-!
# The approximate logarithm

The logarithm of a number is computed from the exponent in its bit pattern and
from a polynomial in its mantissa.  A number below one goes through one above
it, so the exponent is never negative, and this holds for the least numbers too,
which have no full mantissa.  The logarithm of every positive number is
therefore a number of moderate size.
-/

namespace PitchFollower.Single

open Float.Model (Format UnpackedFloat)
open Float.Model.UnpackedFloat

/-! ## Bit patterns without a sign -/

section Patterns

variable {x : Float32} {b : UInt32}

/-- The bit pattern of infinity.  Those below it are the numbers that are not
negative, in order. -/
def infinityPattern : ℕ := 255 * 2 ^ 23

theorem unpacked_eq (x : Float32) :
    unpacked x = unpack .binary32 x.toBits.toBitVec :=
  rfl

theorem toNat_unpackExponent_lt (hb : b.toNat < infinityPattern) :
    (@unpackExponent .binary32 b.toBitVec).toNat < 255 := by
  have hexponent := @toNat_unpackExponent .binary32 b.toBitVec
  change _ = b.toNat / 2 ^ 23 % 256 at hexponent
  unfold infinityPattern at hb
  omega

theorem toBits_ofBits (hb : b.toNat < infinityPattern) :
    (Float32.ofBits b).toBits = b := by
  have hlt := toNat_unpackExponent_lt hb
  have hvalid : Format.binary32.Valid b.toBitVec := by
    refine ⟨fun hfull => ?_⟩
    rw [hfull] at hlt
    exact absurd hlt (by decide)
  apply UInt32.toBitVec_inj.mp
  exact pack_unpack hvalid

theorem isFinite_of_toBits (hx : x.toBits.toNat < infinityPattern) :
    x.isFinite = true := by
  have hlt := toNat_unpackExponent_lt hx
  have hne : @unpackExponent .binary32 x.toBits.toBitVec ≠ -1#8 := by
    intro hfull
    rw [hfull] at hlt
    exact absurd hlt (by decide)
  have hunpacks := unpacks_unpacked x
  rw [isFinite_iff]
  generalize unpacked x = u at *
  cases hunpacks with
  | infinity hfull _ | notANumber hfull _ => exact absurd hfull hne
  | _ => rfl

/-- The highest bit is that of the sign. -/
theorem unpackSign_eq_positive_iff {b : BitVec 32} :
    Sign.ofBitVec (@unpackSign .binary32 b) = .positive ↔ b.toNat < 2 ^ 31 := by
  have hmask : 0x80000000#32 = BitVec.twoPow 32 31 := rfl
  have hmsb : b.getLsbD 31 = b.msb := rfl
  rw [ofBitVec_unpackSign, hmask, BitVec.and_twoPow, hmsb]
  cases hbit : b.msb with
  | true =>
    have hle := BitVec.le_toNat_of_msb_true hbit
    exact iff_of_false (fun h => by cases h) hle.not_gt
  | false => exact iff_of_true rfl (BitVec.toNat_lt_of_msb_false hbit)

/-- The fields of a bit pattern below that of infinity are the mantissa and the
exponent of the number. -/
theorem exact_of_toBits (hx : x.toBits.toNat < infinityPattern) :
    exact x =
      (x.toBits.toNat % 2 ^ 23 +
        (if x.toBits.toNat / 2 ^ 23 = 0 then 0 else 2 ^ 23) : ℕ) *
        2 ^ ((max (x.toBits.toNat / 2 ^ 23) 1 : ℕ) - 150 : ℤ) := by
  have hsmall : x.toBits.toNat / 2 ^ 23 % 256 = x.toBits.toNat / 2 ^ 23 := by
    unfold infinityPattern at hx
    omega
  have habs : |exact x| = exact x := by
    rw [← exact_abs, exact, exact, unpacked_abs, unpacked_eq,
      abs_of_sign (unpackSign_eq_positive_iff.mpr (hx.trans (by decide)))]
  have hfields := abs_exactOf_unpack_binary32 (isFinite_of_toBits hx)
  change |exact x| = (x.toBits.toNat % 2 ^ 23 +
    (if x.toBits.toNat / 2 ^ 23 % 256 = 0 then 0 else 2 ^ 23) : ℕ) *
    2 ^ ((max (x.toBits.toNat / 2 ^ 23 % 256) 1 : ℕ) - 150 : ℤ) at hfields
  rwa [habs, hsmall] at hfields

/-- The exponent field tells the number up to a factor of two. -/
theorem exact_lt_of_toBits (hx : x.toBits.toNat < infinityPattern) :
    exact x < 2 ^ ((max (x.toBits.toNat / 2 ^ 23) 1 : ℕ) - 126 : ℤ) := by
  have hmantissa : x.toBits.toNat % 2 ^ 23 +
    (if x.toBits.toNat / 2 ^ 23 = 0 then 0 else 2 ^ 23) <
      2 ^ 24 := by
    split_ifs <;> omega
  rw [exact_of_toBits hx]
  generalize x.toBits.toNat % 2 ^ 23 + _ = m at *
  generalize (max (x.toBits.toNat / 2 ^ 23) 1 : ℕ) = e
  have hsplit : (e - 126 : ℤ) = 24 + (e - 150) := by ring
  rw [hsplit, zpow_add₀ (by norm_num)]
  exact mul_lt_mul_of_pos_right (by exact_mod_cast hmantissa) (two_zpow_pos _)

theorem zpow_le_exact_of_toBits (hx : x.toBits.toNat < infinityPattern)
    (hfull : 1 ≤ x.toBits.toNat / 2 ^ 23) :
    2 ^ ((x.toBits.toNat / 2 ^ 23 : ℕ) - 127 : ℤ) ≤ exact x := by
  rw [exact_of_toBits hx, if_neg (by omega), max_eq_left hfull]
  generalize x.toBits.toNat % 2 ^ 23 = m
  generalize x.toBits.toNat / 2 ^ 23 = e
  have hsplit : (e - 127 : ℤ) = 23 + (e - 150) := by ring
  rw [hsplit, zpow_add₀ (by norm_num)]
  apply mul_le_mul_of_nonneg_right _ (two_zpow_pos _).le
  push_cast
  exact le_add_of_nonneg_left (Nat.cast_nonneg m)

theorem unpackSign_eq_of_unpack {b : BitVec 32} {s : Sign} {m : ℕ} {e : ℤ}
    {hm : 0 < m} (h : unpack .binary32 b = .finite s m e hm) :
    Sign.ofBitVec (@unpackSign .binary32 b) = s := by
  have hunpacks := @Binary.unpacks_unpack .binary32 b
  rw [h] at hunpacks
  cases hunpacks <;> rfl

/-- A positive number has a bit pattern below that of infinity. -/
theorem toBits_lt_of_isPositive (hx : IsPositive x) :
    x.toBits.toNat < infinityPattern := by
  obtain ⟨m, e, hm, hux⟩ := unpacked_of_pos hx.1 ((pos_iff hx.1).mp hx.2)
  have hsign := unpackSign_eq_positive_iff.mp (unpackSign_eq_of_unpack hux)
  have hexponent :
      (@unpackExponent .binary32 x.toBits.toBitVec).toNat ≠ 255 := by
    intro hfull
    have hfull' : @unpackExponent .binary32 x.toBits.toBitVec = -1#8 :=
      BitVec.eq_of_toNat_eq hfull
    have hunpacks := unpacks_unpacked x
    have hfinite := (isFinite_iff x).mp hx.1
    generalize unpacked x = u at hunpacks hfinite
    cases hunpacks with
    | infinity _ hnone | notANumber _ hsome => cases hfinite
    | zero hempty _ | subnormal hempty _ =>
      exact absurd (hempty.symm.trans hfull') (by decide)
    | normal hsome _ hm => exact hsome hfull'
  have hfield := @toNat_unpackExponent .binary32 x.toBits.toBitVec
  change _ = x.toBits.toNat / 2 ^ 23 % 256 at hfield
  change x.toBits.toNat < 2 ^ 31 at hsign
  unfold infinityPattern
  omega

end Patterns

/-! ## The steps -/

namespace Approximate

section Steps

variable {x w : Float32}

/-- A number below one is replaced by the number above one whose logarithm is
opposite. -/
def mirrored (x : Float32) : Float32 :=
  if x < 1 then .ofBits (0x7f000000 - x.toBits) else x

/-- The power of two at or below a number. -/
def binade (w : Float32) : Float32 :=
  .ofBits (w.toBits &&& exponentMask)

/-- The polynomial for the logarithm of a mantissa. -/
def lnOfMantissa (m : Float32) : Float32 :=
  -1.7417939 +
    (2.8212026 + (-1.4699568 + (0.44717955 - 0.056570851 * m) * m) * m) * m

/-- The logarithm of a number that is at least one. -/
def lnFromOne (w : Float32) : Float32 :=
  (biasedExponent w - 127).toFloat32 * ln2 + lnOfMantissa (w / binade w)

theorem ln_eq (x : Float32) :
    ln x = if (x - 1).abs < epsilon then 0
      else if x < 1 then -lnFromOne (mirrored x) else lnFromOne (mirrored x) :=
  rfl

/-- A number that is at least one, by its bit pattern. -/
structure FromOne (w : Float32) : Prop where
  lower : 127 ≤ w.toBits.toNat / 2 ^ 23
  upper : w.toBits.toNat < infinityPattern

theorem fromOne_mirrored (hx : IsPositive x) : FromOne (mirrored x) := by
  have hpattern := toBits_lt_of_isPositive hx
  have hone : (1 : Float32).isFinite = true := rfl
  unfold mirrored
  simp only [lt_iff hx.1 hone, exact_one]
  split_ifs with hlt
  · have hexponent : x.toBits.toNat / 2 ^ 23 < 127 := by
      by_contra hlarge
      have hle := zpow_le_exact_of_toBits hpattern (by omega)
      have hpow : (1 : ℚ) ≤ 2 ^ ((x.toBits.toNat / 2 ^ 23 : ℕ) - 127 : ℤ) :=
        one_le_zpow₀ (by norm_num) (by omega)
      linarith
    have htop : (0x7f000000 : UInt32).toNat = 254 * 2 ^ 23 := rfl
    have hsub : (0x7f000000 - x.toBits).toNat =
        254 * 2 ^ 23 - x.toBits.toNat := by
      rw [UInt32.toNat_sub_of_le _ _ (UInt32.le_iff_toNat_le.mpr (by omega)),
        htop]
    have hsmall : (0x7f000000 - x.toBits).toNat < infinityPattern := by
      unfold infinityPattern
      omega
    constructor
    · rw [toBits_ofBits hsmall]
      omega
    · rwa [toBits_ofBits hsmall]
  · refine ⟨?_, hpattern⟩
    have hmost := exact_lt_of_toBits hpattern
    by_contra hsmall
    have hpow :
        (2 : ℚ) ^ ((max (x.toBits.toNat / 2 ^ 23) 1 : ℕ) - 126 : ℤ) ≤ 1 :=
      zpow_le_one_of_nonpos₀ (by norm_num) (by omega)
    linarith

theorem toNat_and_exponentMask (b : UInt32) :
    (b &&& exponentMask).toNat = b.toNat / 2 ^ 23 % 256 * 2 ^ 23 := by
  have hmask : exponentMask.toNat = (2 ^ 8 - 1) * 2 ^ 23 := rfl
  have hquot : (b &&& exponentMask).toNat / 2 ^ 23 =
      b.toNat / 2 ^ 23 % 256 := by
    rw [UInt32.toNat_and, ← Nat.shiftRight_eq_div_pow,
      Nat.shiftRight_and_distrib, Nat.shiftRight_eq_div_pow,
      Nat.shiftRight_eq_div_pow, hmask, Nat.mul_div_cancel _ (by positivity),
      Nat.and_two_pow_sub_one_eq_mod]
  have hrest : (b &&& exponentMask).toNat % 2 ^ 23 = 0 := by
    rw [UInt32.toNat_and, Nat.and_mod_two_pow, hmask, Nat.mul_mod_left,
      Nat.and_zero]
  omega

section FromOne

variable (hw : FromOne w)

include hw

theorem FromOne.toNat_biasedExponent :
    (biasedExponent w).toNat = w.toBits.toNat / 2 ^ 23 := by
  have hupper := hw.upper
  have hshift : (biasedExponent w).toNat = (w.toBits &&& exponentMask).toNat /
      2 ^ 23 := by
    rw [biasedExponent, UInt32.toNat_shiftRight, Nat.shiftRight_eq_div_pow]
    rfl
  rw [hshift, toNat_and_exponentMask]
  unfold infinityPattern at hupper
  omega

theorem FromOne.toBits_binade :
    (binade w).toBits.toNat = w.toBits.toNat / 2 ^ 23 * 2 ^ 23 := by
  have hupper := hw.upper
  have hmasked := toNat_and_exponentMask w.toBits
  unfold infinityPattern at hupper
  rw [binade, toBits_ofBits (by unfold infinityPattern; omega), hmasked]
  omega

theorem FromOne.exact_binade :
    (binade w).isFinite = true ∧
      exact (binade w) = 2 ^ ((w.toBits.toNat / 2 ^ 23 : ℕ) - 127 : ℤ) := by
  have hlower := hw.lower
  have hupper := hw.upper
  have hpattern : (binade w).toBits.toNat < infinityPattern := by
    rw [hw.toBits_binade]
    omega
  refine ⟨isFinite_of_toBits hpattern, ?_⟩
  rw [exact_of_toBits hpattern, hw.toBits_binade, Nat.mul_mod_left,
    Nat.mul_div_cancel _ (by positivity), if_neg (by omega),
    max_eq_left (by omega)]
  generalize w.toBits.toNat / 2 ^ 23 = e
  have hsplit : (e - 127 : ℤ) = 23 + (e - 150) := by ring
  rw [hsplit, zpow_add₀ (by norm_num)]
  norm_num

/-- The mantissa is less than two. -/
theorem FromOne.within_mantissa : Within 2 (w / binade w) := by
  have hlower := hw.lower
  obtain ⟨hbinade, hexact⟩ := hw.exact_binade
  have hpos : 0 < exact (binade w) := hexact ▸ two_zpow_pos _
  have hmost := exact_lt_of_toBits hw.upper
  have hleast := zpow_le_exact_of_toBits hw.upper (by omega)
  have hwithin : Within (2 * exact (binade w)) w := by
    refine ⟨isFinite_of_toBits hw.upper, ?_⟩
    rw [max_eq_left (by omega)] at hmost
    generalize w.toBits.toNat / 2 ^ 23 = e at *
    have hsplit : (e - 126 : ℤ) = 1 + (e - 127) := by ring
    rw [hsplit, zpow_add₀ (by norm_num), zpow_one] at hmost
    rw [abs_of_nonneg ((two_zpow_pos _).le.trans hleast), hexact]
    exact hmost.le
  exact hwithin.div hbinade hpos (onGrid_zpow (e := 1) (by norm_num))
    (by norm_num) (by norm_num)

/-- The exponent is less than 128. -/
theorem FromOne.within_exponent :
    Within 128 (biasedExponent w - 127).toFloat32 := by
  have hlower := hw.lower
  have hupper := hw.upper
  have hexponent := hw.toNat_biasedExponent
  unfold infinityPattern at hupper
  have hbias : (127 : UInt32).toNat = 127 := rfl
  have hsub : (biasedExponent w - 127).toNat =
      w.toBits.toNat / 2 ^ 23 - 127 := by
    rw [UInt32.toNat_sub_of_le _ _ (UInt32.le_iff_toNat_le.mpr (by omega)),
      hexponent, hbias]
  have hmost : w.toBits.toNat / 2 ^ 23 - 127 ≤ 128 := by omega
  rw [toFloat32_eq, hsub]
  refine ⟨(ofNat_finite (by omega)).1, ?_⟩
  rw [exact_ofNat (by omega), abs_of_nonneg (Nat.cast_nonneg _)]
  exact_mod_cast hmost

end FromOne

/-! ## Bounds -/

/-- One step through the polynomial: at most four times as large, for
coefficients of magnitude at most four. -/
theorem within_hornerStep {c y m : Float32} {k : ℕ} (hc : Within 4 c)
    (hy : Within (2 ^ k) y) (hm : Within 2 m) (hleast : 2 ≤ k)
    (hmost : k ≤ 100) : Within (2 ^ (k + 2)) ((c + y) * m) := by
  have hfour : (4 : ℚ) ≤ 2 ^ k := by
    exact_mod_cast Nat.pow_le_pow_right two_pos hleast
  have hgrid (j : ℕ) : OnGrid (2 ^ j) := by
    exact_mod_cast onGrid_zpow (e := j) (by omega)
  have hrange (j : ℕ) (hj : j < 128) : (2 : ℚ) ^ j < 2 ^ 128 :=
    pow_lt_pow_right₀ (by norm_num) hj
  have hsum : Within (2 ^ (k + 1)) (c + y) := by
    apply hc.add hy (hgrid _) (hrange _ (by omega))
    rw [pow_succ]
    linarith
  exact hsum.mul hm (hgrid _) (hrange _ (by omega)) (pow_succ _ _).ge

theorem within_lnOfMantissa {m : Float32} (hm : Within 2 m) :
    Within (2 ^ 9) (lnOfMantissa m) := by
  have hconstant : Within 4 (-1.7417939) ∧ Within 4 2.8212026 ∧
    Within 4 (-1.4699568) ∧
      Within 4 0.44717955 ∧ Within 2 0.056570851 :=
    ⟨⟨by decide +kernel, by decide +kernel⟩,
      ⟨by decide +kernel, by decide +kernel⟩,
      ⟨by decide +kernel, by decide +kernel⟩,
      ⟨by decide +kernel, by decide +kernel⟩,
      ⟨by decide +kernel, by decide +kernel⟩⟩
  obtain ⟨h₀, h₁, h₂, h₃, h₄⟩ := hconstant
  have hfourth : Within (2 ^ 2) (0.056570851 * m) :=
    h₄.mul hm (onGrid_zpow (e := 2) (by norm_num)) (by norm_num) (by norm_num)
  have hthird := within_hornerStep h₃ hfourth.neg hm (by norm_num) (by norm_num)
  rw [← single_sub_eq_add_neg] at hthird
  have hsecond := within_hornerStep h₂ hthird hm (by norm_num) (by norm_num)
  have hfirst := within_hornerStep h₁ hsecond hm (by norm_num) (by norm_num)
  exact h₀.add hfirst (onGrid_zpow (e := 9) (by norm_num)) (by norm_num)
    (by norm_num)

theorem FromOne.within_lnFromOne (hw : FromOne w) :
    Within (2 ^ 10) (lnFromOne w) := by
  have hln2 : Within 1 ln2 := ⟨by decide +kernel, by decide +kernel⟩
  have hscaled : Within 128 ((biasedExponent w - 127).toFloat32 * ln2) :=
    hw.within_exponent.mul hln2 (onGrid_zpow (e := 7) (by norm_num))
      (by norm_num) (by norm_num)
  exact hscaled.add (within_lnOfMantissa hw.within_mantissa)
    (onGrid_zpow (e := 10) (by norm_num))
    (by norm_num) (by norm_num)

theorem within_ln (hx : IsPositive x) : Within (2 ^ 10) (ln x) := by
  have hfrom := (fromOne_mirrored hx).within_lnFromOne
  rw [ln_eq]
  split_ifs
  · exact within_zero.mono (by norm_num)
  · exact hfrom.neg
  · exact hfrom

/-- The logarithm of a positive number is of moderate size. -/
theorem within_log2 (hx : IsPositive x) : Within (2 ^ 11) (log2 x) := by
  have hlog2e : Within 2 log2e := ⟨by decide +kernel, by decide +kernel⟩
  exact (within_ln hx).mul hlog2e (onGrid_zpow (e := 11) (by norm_num))
    (by norm_num) (by norm_num)

end Steps

end Approximate

end PitchFollower.Single
