import Mathlib.Tactic.NormNum
import Mathlib.Tactic.Ring

/-!
# Binary formats

Rounding a triple to a format shifts its mantissa, and packing the triple stores
the mantissa without its first bit.  This module describes both for all formats
at once.  A mantissa that fits its places is not shifted, one that has become a
bit too long is shifted once more, and a triple as rounding leaves it is
unpacked as it was packed.
-/

namespace PitchFollower.Binary

open Float.Model (Format UnpackedFloat totalExponent)
open Float.Model.UnpackedFloat

variable {fmt : Format}

/-! ## The parameters of a format -/

theorem mantissaBits_eq (fmt : Format) :
    fmt.mantissaBits = 1 + fmt.mantissaBitsWithoutImplicit :=
  rfl

theorem minExponent_eq (fmt : Format) :
    fmt.minExponent =
      1 - (fmt.exponentBias + fmt.mantissaBitsWithoutImplicit : ℤ) := by
  have hpow := Nat.one_le_two_pow (n := fmt.exponentBits - 1)
  simp only [Format.minExponent, Format.exponentBias, mantissaBits_eq]
  push_cast [hpow]
  ring

/-- The stored exponents take up a field of bits, the largest of them for what
is not finite. -/
theorem two_pow_exponentBits (fmt : Format) :
    2 ^ fmt.exponentBits = 2 * fmt.exponentBias + 2 := by
  have hpow := Nat.one_le_two_pow (n := fmt.exponentBits - 1)
  have hbits := Nat.two_pow_pred_mul_two fmt.he
  rw [Format.exponentBias]
  omega

theorem two_pow_mantissaBits (fmt : Format) :
    2 ^ fmt.mantissaBits = 2 * 2 ^ fmt.mantissaBitsWithoutImplicit := by
  rw [mantissaBits_eq, pow_add, pow_one]

/-! ## Packing and unpacking -/

theorem toNat_ofNat_of_lt {w n : ℕ} (h : n < 2 ^ w) :
    (BitVec.ofNat w n).toNat = n := by
  rw [BitVec.toNat_ofNat, Nat.mod_eq_of_lt h]

/-- A field of bits is not full if it has room for one more. -/
theorem ofNat_ne_neg_one {w n : ℕ} (h : n + 1 < 2 ^ w) :
    BitVec.ofNat w n ≠ -1#w := by
  rw [← BitVec.toNat_ne_iff_ne, toNat_ofNat_of_lt (Nat.lt_of_succ_lt h),
    BitVec.neg_one_eq_allOnes, BitVec.toNat_allOnes]
  omega

theorem ofNat_ne_zero {w n : ℕ} (hpos : 0 < n) (h : n < 2 ^ w) :
    BitVec.ofNat w n ≠ 0#w := by
  rw [← BitVec.toNat_ne_iff_ne, toNat_ofNat_of_lt h, BitVec.toNat_zero]
  exact hpos.ne'

theorem toNat_one_append {w : ℕ} (m : BitVec w) :
    (1#1 ++ m).toNat = 2 ^ w + m.toNat := by
  rw [BitVec.toNat_append, ← Nat.shiftLeft_add_eq_or_of_lt m.isLt,
    BitVec.toNat_ofNat, Nat.one_mod_eq_one.mpr (by norm_num), Nat.one_shiftLeft]

theorem toNat_one_append_pos {w : ℕ} (m : BitVec w) : 0 < (1#1 ++ m).toNat :=
  (Nat.add_pos_left (Nat.two_pow_pos w) _).trans_eq (toNat_one_append m).symm

theorem pack_finite (s : Sign) {m : ℕ} (e : ℤ) (hm : 0 < m) :
    pack fmt (.finite s m e hm) =
      if 2 ^ fmt.exponentBits ≤
        (e + fmt.exponentBias + fmt.mantissaBitsWithoutImplicit).toNat + 1 then
        packedInfinity fmt s
      else if m.log2 + 1 = fmt.mantissaBits then
        packComponents fmt s
          (.ofNat _
            (e + fmt.exponentBias + fmt.mantissaBitsWithoutImplicit).toNat)
          (.ofNat _ m)
      else packComponents fmt s 0#_ (.ofNat _ m) :=
  rfl

theorem unpackSign_eq (b : BitVec fmt.numBits) :
    unpackSign b =
      (b.extractLsb (fmt.mantissaBitsWithoutImplicit + fmt.exponentBits)
        (fmt.mantissaBitsWithoutImplicit + fmt.exponentBits)).cast (by omega) :=
  rfl

theorem unpack_eq (b : BitVec fmt.numBits) :
    unpack fmt b =
      if unpackExponent b = -1#_ then
        if unpackMantissa b = 0#_ then .infinity (.ofBitVec (unpackSign b))
        else .notANumber
      else if unpackExponent b = 0#_ then
        if h : unpackMantissa b = 0#_ then .zero (.ofBitVec (unpackSign b))
        else
          .finite (.ofBitVec (unpackSign b)) (unpackMantissa b).toNat
            ((unpackExponent b).toNat -
              (fmt.exponentBias + fmt.mantissaBitsWithoutImplicit) + 1 : ℤ)
            (Nat.pos_of_ne_zero fun hzero => h (BitVec.eq_of_toNat_eq hzero))
      else
        .finite (.ofBitVec (unpackSign b)) (1#1 ++ unpackMantissa b).toNat
          ((unpackExponent b).toNat -
            (fmt.exponentBias + fmt.mantissaBitsWithoutImplicit) : ℤ)
          (toNat_one_append_pos _) :=
  rfl

theorem ofBitVec_unpackSign_packComponents
    (s : Sign) (e : BitVec fmt.exponentBits)
    (m : BitVec fmt.mantissaBitsWithoutImplicit) :
    Sign.ofBitVec (unpackSign (packComponents fmt s e m)) = s := by
  have hsign : unpackSign (packComponents fmt s e m) = s.toBitVec := by
    apply BitVec.eq_of_getLsbD_eq
    intro i hi
    obtain rfl : i = 0 := by omega
    simp [unpackSign_eq, packComponents, BitVec.getLsbD_append,
      BitVec.getElem_append]
  rw [hsign]
  cases s <;> rfl

/-- What a bit pattern unpacks to, by its exponent and its mantissa. -/
inductive Unpacks (b : BitVec fmt.numBits) : UnpackedFloat → Prop
  | infinity (hfull : unpackExponent b = -1#_)
      (hnone : unpackMantissa b = 0#_) :
      Unpacks b (.infinity (.ofBitVec (unpackSign b)))
  | notANumber (hfull : unpackExponent b = -1#_)
      (hsome : unpackMantissa b ≠ 0#_) :
      Unpacks b .notANumber
  | zero (hempty : unpackExponent b = 0#_) (hnone : unpackMantissa b = 0#_) :
      Unpacks b (.zero (.ofBitVec (unpackSign b)))
  | subnormal (hempty : unpackExponent b = 0#_)
      (hm : 0 < (unpackMantissa b).toNat) :
      Unpacks b
        (.finite (.ofBitVec (unpackSign b)) (unpackMantissa b).toNat
          (1 - (fmt.exponentBias + fmt.mantissaBitsWithoutImplicit) : ℤ) hm)
  | normal (hfull : unpackExponent b ≠ -1#_) (hsome : unpackExponent b ≠ 0#_)
      (hm : 0 < 2 ^ fmt.mantissaBitsWithoutImplicit +
        (unpackMantissa b).toNat) :
      Unpacks b
        (.finite (.ofBitVec (unpackSign b))
          (2 ^ fmt.mantissaBitsWithoutImplicit + (unpackMantissa b).toNat)
          ((unpackExponent b).toNat -
            (fmt.exponentBias + fmt.mantissaBitsWithoutImplicit) : ℤ) hm)

theorem unpacks_unpack (b : BitVec fmt.numBits) : Unpacks b (unpack fmt b) := by
  rw [unpack_eq]
  by_cases hfull : unpackExponent b = -1#_
  · rw [if_pos hfull]
    by_cases hnone : unpackMantissa b = 0#_
    · rw [if_pos hnone]
      exact .infinity hfull hnone
    · rw [if_neg hnone]
      exact .notANumber hfull hnone
  rw [if_neg hfull]
  by_cases hempty : unpackExponent b = 0#_
  · rw [if_pos hempty]
    by_cases hnone : unpackMantissa b = 0#_
    · rw [dif_pos hnone]
      exact .zero hempty hnone
    · have hm : 0 < (unpackMantissa b).toNat :=
        Nat.pos_of_ne_zero fun hzero => hnone (BitVec.eq_of_toNat_eq hzero)
      rw [dif_neg hnone]
      convert Unpacks.subnormal hempty hm using 2
      rw [hempty, BitVec.toNat_zero]
      ring
  · rw [if_neg hempty]
    convert Unpacks.normal hfull hempty (Nat.add_pos_left (Nat.two_pow_pos _) _)
      using 2
    exact toNat_one_append _

/-- Packing a triple with a full mantissa loses nothing.  Its stored exponent is
neither that of subnormal numbers nor that of infinities. -/
theorem unpack_pack_of_full {s : Sign} {m : ℕ} {e : ℤ} (hm : 0 < m)
    (hlow : 2 ^ fmt.mantissaBitsWithoutImplicit ≤ m)
    (hhigh : m < 2 ^ fmt.mantissaBits) (hleast : fmt.minExponent ≤ e)
    (hmost : e + fmt.mantissaBitsWithoutImplicit ≤ fmt.exponentBias) :
    unpack fmt (pack fmt (.finite s m e hm)) = .finite s m e hm := by
  have hroom := two_pow_exponentBits fmt
  have htwice := two_pow_mantissaBits fmt
  rw [minExponent_eq] at hleast
  have hlog : m.log2 + 1 = fmt.mantissaBits := by
    rw [mantissaBits_eq, add_comm] at hhigh ⊢
    rw [(Nat.log2_eq_iff hm.ne').mpr ⟨hlow, hhigh⟩]
  generalize hstored :
    (e + fmt.exponentBias + fmt.mantissaBitsWithoutImplicit).toNat = stored
  have hleft : stored + 1 < 2 ^ fmt.exponentBits := by omega
  have hsome : 0 < stored := by omega
  have hmantissa :
      (1#1 ++ BitVec.ofNat fmt.mantissaBitsWithoutImplicit m).toNat = m := by
    have hrest : m % 2 ^ fmt.mantissaBitsWithoutImplicit =
        m - 2 ^ fmt.mantissaBitsWithoutImplicit := by
      rw [Nat.mod_eq_sub_mod hlow, Nat.mod_eq_of_lt (by omega)]
    rw [toNat_one_append, BitVec.toNat_ofNat, hrest]
    omega
  rw [pack_finite, hstored, if_neg (Nat.not_le.mpr hleft), if_pos hlog,
    unpack_eq, unpackExponent_packComponents, if_neg (ofNat_ne_neg_one hleft),
    if_neg (ofNat_ne_zero hsome (Nat.lt_of_succ_lt hleft)), finite.injEq,
    ofBitVec_unpackSign_packComponents, unpackMantissa_packComponents]
  refine ⟨rfl, hmantissa, ?_⟩
  rw [toNat_ofNat_of_lt (Nat.lt_of_succ_lt hleft)]
  omega

/-- Packing a triple with the least exponent and a mantissa that is not full
loses nothing. -/
theorem unpack_pack_of_least
    {s : Sign} {m : ℕ} (hbias : 0 < fmt.exponentBias) (hm : 0 < m)
    (hhigh : m < 2 ^ fmt.mantissaBitsWithoutImplicit) :
    unpack fmt (pack fmt (.finite s m fmt.minExponent hm)) =
      .finite s m fmt.minExponent hm := by
  have hroom := two_pow_exponentBits fmt
  have hleast := minExponent_eq fmt
  have hlog : m.log2 + 1 ≠ fmt.mantissaBits := by
    have := (Nat.log2_lt hm.ne').mpr hhigh
    rw [mantissaBits_eq]
    omega
  have hexponent :
      ¬ 2 ^ fmt.exponentBits ≤
        (fmt.minExponent + fmt.exponentBias +
          fmt.mantissaBitsWithoutImplicit).toNat + 1 := by
    omega
  have hfull : BitVec.ofNat fmt.exponentBits 0 ≠ -1#_ :=
    ofNat_ne_neg_one (by omega)
  have hnone : unpackMantissa (packComponents fmt s 0#_ (.ofNat _ m)) ≠
      0#_ := by
    rw [unpackMantissa_packComponents]
    exact ofNat_ne_zero hm hhigh
  rw [pack_finite, if_neg hexponent, if_neg hlog, unpack_eq,
    unpackExponent_packComponents, if_neg hfull, if_pos rfl, dif_neg hnone,
    finite.injEq, ofBitVec_unpackSign_packComponents,
    unpackMantissa_packComponents]
  refine ⟨rfl, toNat_ofNat_of_lt hhigh, ?_⟩
  rw [BitVec.toNat_zero]
  omega

/-! ## Shifting to a place -/

theorem mantissa_ofMantissaAndAccuracy (m : ℕ) (accuracy : Accuracy) :
    (ExtendedMantissa.ofMantissaAndAccuracy m accuracy).mantissa = m := by
  cases accuracy with
  | exact => rfl
  | inexact o => cases o <;> rfl

section Shift

variable {m n k : ℕ} {e t : ℤ} {accuracy : Accuracy}

theorem shiftToTargetExponent_eq (accuracy : Accuracy) (hk : t - e = k)
    (htarget : fmt.targetExponent (totalExponent m e) = t) :
    shiftToTargetExponent fmt m e accuracy =
      (ExtendedMantissa.ofMantissaAndAccuracy m accuracy >>> k, t) := by
  simp only [shiftToTargetExponent, shiftToExponent, htarget, hk,
    Int.toNat_natCast, Prod.mk.injEq, true_and]
  omega

theorem shiftToTargetExponent_of_lt (hn : n < 2 ^ fmt.mantissaBits)
    (ht : fmt.minExponent ≤ t) :
    shiftToTargetExponent fmt n t .exact =
      (.ofMantissaAndAccuracy n .exact, t) := by
  have hlog : n.log2 < fmt.mantissaBits := by
    rcases eq_or_ne n 0 with rfl | hne
    · rw [Nat.log2_zero, mantissaBits_eq]
      omega
    · exact (Nat.log2_lt hne).mpr hn
  have hshift : (fmt.targetExponent (totalExponent n t) - t).toNat = 0 := by
    rw [Format.targetExponent, totalExponent]
    omega
  simp only [shiftToTargetExponent, shiftToExponent, hshift]
  simp [HShiftRight.hShiftRight, Nat.repeat]

/-- A mantissa that rounding has made one bit too long is shifted once more. -/
theorem shiftToTargetExponent_two_pow (ht : fmt.minExponent ≤ t) :
    shiftToTargetExponent fmt (2 ^ fmt.mantissaBits) t .exact =
      (.ofMantissaAndAccuracy (2 ^ fmt.mantissaBitsWithoutImplicit) .exact,
        t + 1) := by
  have htarget :
      fmt.targetExponent (totalExponent (2 ^ fmt.mantissaBits) t) = t + 1 := by
    rw [Format.targetExponent, totalExponent, Nat.log2_two_pow]
    omega
  rw [shiftToTargetExponent_eq .exact (k := 1) (by omega) htarget,
    two_pow_mantissaBits]
  simp [HShiftRight.hShiftRight, Nat.repeat, ExtendedMantissa.shiftRightOne,
    ExtendedMantissa.ofMantissaAndAccuracy]

/-- A rounded mantissa is zero, or it fits its places, or it has become one bit
too long. -/
theorem roundWithAccuracy_eq {s : Sign} (ht : fmt.minExponent ≤ t)
    (hexp : (shiftToTargetExponent fmt m e accuracy).2 = t)
    (hmant : (shiftToTargetExponent fmt m e accuracy).1.roundedMantissa = n)
    (hn : n ≤ 2 ^ fmt.mantissaBits) :
    roundWithAccuracy fmt s m e accuracy =
      if h : n = 0 then .zero s
      else if n < 2 ^ fmt.mantissaBits then .finite s n t (Nat.pos_of_ne_zero h)
      else
        .finite s (2 ^ fmt.mantissaBitsWithoutImplicit) (t + 1)
          (Nat.two_pow_pos _) := by
  unfold roundWithAccuracy
  generalize shiftToTargetExponent fmt m e accuracy = shifted at *
  obtain ⟨em, e'⟩ := shifted
  obtain rfl : e' = t := hexp
  obtain rfl : em.roundedMantissa = n := hmant
  dsimp only
  rcases hn.lt_or_eq with hlt | heq
  · rw [shiftToTargetExponent_of_lt hlt ht]
    exact dite_congr rfl (fun _ => rfl) fun _ => (if_pos hlt).symm
  · have hpos := Nat.two_pow_pos fmt.mantissaBits
    rw [heq, shiftToTargetExponent_two_pow ht, dif_neg hpos.ne',
      if_neg (lt_irrefl _)]
    exact dif_neg (Nat.two_pow_pos _).ne'

end Shift

/-! ## Products and quotients -/

section Operations

variable {m n : ℕ} (s t : Sign) (e f : ℤ) (hm : 0 < m) (hn : 0 < n)

theorem mul_finite :
    mul fmt (.finite s m e hm) (.finite t n f hn) =
      roundWithAccuracy fmt (s * t) (m * n) (e + f) .exact :=
  rfl

theorem div_finite :
    div fmt (.finite s m e hm) (.finite t n f hn) =
      roundWithAccuracy fmt (s / t) (divCore fmt m e n f).1
        (divCore fmt m e n f).2.1
        (divCore fmt m e n f).2.2 :=
  rfl

end Operations

end PitchFollower.Binary
