import PitchFollower.Proofs.Single.Magnitude

/-!
# Bit patterns

A number is determined by its sign, mantissa and exponent, and a finite one that
is not zero by its exact value.  This module also reads the sign and the
magnitude off the bit pattern.
-/

namespace PitchFollower.Single

open Float.Model (Format UnpackedFloat)
open Float.Model.UnpackedFloat

/-! ## Packing what has been unpacked -/

theorem toBitVec_ofBitVec (b : BitVec 1) : (Sign.ofBitVec b).toBitVec = b := by
  revert b
  decide

/-- The three parts of a bit pattern, put together again. -/
theorem packComponents_eq {b : BitVec 32} {e : BitVec 8} {m : BitVec 23}
    (he : @unpackExponent .binary32 b = e)
    (hm : @unpackMantissa .binary32 b = m) :
    packComponents .binary32 (Sign.ofBitVec (@unpackSign .binary32 b)) e
      m = b := by
  subst he hm
  simp only [packComponents, toBitVec_ofBitVec, Binary.unpackSign_eq,
    unpackExponent, unpackMantissa, BitVec.extractLsb]
  ext i hi
  grind

/-- Packing what has been unpacked gives back the bits.  A subnormal number has
the least exponent and a mantissa that is too short. -/
theorem pack_unpack {b : BitVec 32} (hvalid : Format.binary32.Valid b) :
    pack .binary32 (unpack .binary32 b) = b := by
  have hunpacks := @Binary.unpacks_unpack .binary32 b
  generalize unpack .binary32 b = u at *
  cases hunpacks with
  | infinity hfull hnone => exact packComponents_eq hfull hnone
  | notANumber hfull hsome => exact (hvalid.eq_packedNaN hfull hsome).symm
  | zero hempty hnone => exact packComponents_eq hempty hnone
  | subnormal hempty hpos =>
    have hm := (@unpackMantissa .binary32 b).isLt
    have hlog : (@unpackMantissa .binary32 b).toNat.log2 < 23 :=
      (Nat.log2_lt hpos.ne').mpr hm
    have hbits : ¬ (@unpackMantissa .binary32 b).toNat.log2 + 1 =
        Format.binary32.mantissaBits := by
      have hplaces : Format.binary32.mantissaBits = 24 := rfl
      omega
    rw [Binary.pack_finite, if_neg (by decide), if_neg hbits]
    exact packComponents_eq hempty
      (by rw [BitVec.ofNat_toNat, BitVec.setWidth_eq])
  | normal hfull hsome hpos =>
    have hm := (@unpackMantissa .binary32 b).isLt
    have he := (@unpackExponent .binary32 b).isLt
    have hne : (@unpackExponent .binary32 b).toNat ≠ 255 :=
      fun h => hfull (BitVec.eq_of_toNat_eq h)
    have hlog : (2 ^ 23 + (@unpackMantissa .binary32 b).toNat).log2 = 23 :=
      (Nat.log2_eq_iff (by omega)).mpr ⟨by omega, by norm_num at hm ⊢; omega⟩
    have hbias : ((@unpackExponent .binary32 b).toNat : ℤ) -
          (Format.binary32.exponentBias + (23 : ℕ)) +
          Format.binary32.exponentBias + (23 : ℕ) =
        (@unpackExponent .binary32 b).toNat := by ring
    rw [Binary.pack_finite, hbias, Int.toNat_natCast, hlog,
      if_neg (by norm_num at he ⊢; omega), if_pos (by rfl)]
    refine packComponents_eq ?_ ?_
    · rw [BitVec.ofNat_toNat, BitVec.setWidth_eq]
    · rw [← BitVec.toNat_inj, BitVec.toNat_ofNat]
      norm_num at hm ⊢
      omega

theorem ofUnpacked_unpacked (x : Float32) : ofUnpacked (unpacked x) = x := by
  obtain ⟨bits, hvalid⟩ := x
  have hbits :
      UInt32.ofBitVec
        (pack .binary32 (unpack .binary32 bits.toBitVec)) = bits :=
    UInt32.toBitVec_inj.mp (pack_unpack hvalid)
  exact congrArg Float32.ofModel ((Float32.Model.mk.injEq ..).mpr hbits)

theorem eq_of_unpacked_eq {x y : Float32} (h : unpacked x = unpacked y) :
    x = y := by
  rw [← ofUnpacked_unpacked x, h, ofUnpacked_unpacked]

theorem sub_of_infinity {x y : Float32} {s : Sign}
    (hx : unpacked x = .infinity s) (hy : y.isFinite = true) : x - y = x := by
  apply eq_of_unpacked_eq
  rw [single_sub_eq_add_neg,
    unpacked_add_of_infinity hx (isFinite_neg y ▸ hy), hx]

theorem eq_of_toBits_eq {x y : Float32} (h : x.toBits = y.toBits) : x = y := by
  apply eq_of_unpacked_eq
  change unpack .binary32 x.toBits.toBitVec = unpack .binary32 y.toBits.toBitVec
  rw [h]

/-! ## Exact values determine numbers -/

/-- Of two canonical triples that are equal, but not zero, both are the same. -/
theorem eq_of_exactOf_eq {u v : UnpackedFloat} (hu : Canonical u)
    (hv : Canonical v) (h : exactOf u = exactOf v) (hne : exactOf u ≠ 0) :
    u = v := by
  cases u with
  | finite s m e hm =>
    cases v with
    | finite t n f hn =>
      have hmpos : (0 : ℚ) < m * 2 ^ e := by positivity
      have hnpos : (0 : ℚ) < n * 2 ^ f := by positivity
      rw [exactOf_finite, exactOf_finite] at h
      obtain rfl : s = t := by
        cases s <;> cases t <;> simp only [signed] at h <;>
          first | rfl | linarith
      have hvalue : (m : ℚ) * 2 ^ e = n * 2 ^ f := by
        cases s
        · exact neg_injective h
        · exact h
      rcases lt_trichotomy e f with hlt | rfl | hlt
      · exact absurd hvalue (mul_zpow_lt_of_exponent_lt hu hv hlt).ne
      · obtain rfl : m = n := by
          exact_mod_cast mul_right_cancel₀ (two_zpow_pos e).ne' hvalue
        rfl
      · exact absurd hvalue (mul_zpow_lt_of_exponent_lt hv hu hlt).ne'
    | _ => exact absurd h hne
  | _ => exact absurd rfl hne

theorem eq_of_exact_eq {x y : Float32} (h : exact x = exact y)
    (hne : exact x ≠ 0) : x = y :=
  eq_of_unpacked_eq
    (eq_of_exactOf_eq (canonical_unpacked x) (canonical_unpacked y) h hne)

/-- A finite number is what its exact value is rounded to. -/
theorem eq_of_roundsTo {q : ℚ} {x z : Float32} (h : RoundsTo q z)
    (hq : nearest q = exact x) (hne : exact x ≠ 0) : z = x := by
  have hrange := abs_exact_lt x
  rw [← hq] at hrange
  rw [RoundsTo, if_pos hrange] at h
  exact (eq_of_exact_eq (hq.symm.trans h.2.symm) hne).symm

/-- A rounded result is infinite on the side on which it is out of range. -/
theorem RoundsTo.cases {q : ℚ} {z : Float32} (h : RoundsTo q z) :
    (nearest q ≤ -2 ^ 128 ∧ unpacked z = .infinity .negative) ∨
      (2 ^ 128 ≤ nearest q ∧ unpacked z = .infinity .positive) ∨
      (|nearest q| < 2 ^ 128 ∧ z.isFinite = true ∧ exact z = nearest q) := by
  unfold RoundsTo at h
  split_ifs at h with hrange hneg
  · exact .inr (.inr ⟨hrange, h⟩)
  · have hnonpos := nearest_mono hneg.le
    rw [nearest_zero] at hnonpos
    rw [abs_of_nonpos hnonpos, not_lt] at hrange
    exact .inl ⟨by linarith, h⟩
  · rw [abs_of_nonneg (nearest_nonneg (not_lt.mp hneg)), not_lt] at hrange
    exact .inr (.inl ⟨hrange, h⟩)

/-- A result is determined by what is rounded to, unless that is one of the
zeros. -/
theorem RoundsTo.eq_of_nearest_eq {q r : ℚ} {z w : Float32} (hz : RoundsTo q z)
    (hw : RoundsTo r w) (h : nearest q = nearest r) (hne : nearest q ≠ 0) :
    z = w := by
  rcases hz.cases with ⟨hq, hz⟩ | ⟨hq, hz⟩ | ⟨hq, -, hz⟩ <;>
    rcases hw.cases with ⟨hr, hw⟩ | ⟨hr, hw⟩ | ⟨hr, -, hw⟩
  · exact eq_of_unpacked_eq (hz.trans hw.symm)
  · linarith
  · linarith [neg_lt_of_abs_lt hr]
  · linarith
  · exact eq_of_unpacked_eq (hz.trans hw.symm)
  · linarith [lt_of_abs_lt hr]
  · linarith [neg_lt_of_abs_lt hq]
  · linarith [lt_of_abs_lt hq]
  · exact eq_of_exact_eq (by rw [hz, hw, h]) (hz ▸ hne)

/-! ## Parts of a bit pattern -/

section Fields

variable {fmt : Format} {b : BitVec fmt.numBits}

theorem toNat_unpackExponent (b : BitVec fmt.numBits) :
    (unpackExponent b).toNat =
      b.toNat / 2 ^ fmt.mantissaBitsWithoutImplicit % 2 ^ fmt.exponentBits := by
  have hwidth : fmt.mantissaBitsWithoutImplicit + fmt.exponentBits - 1 -
      fmt.mantissaBitsWithoutImplicit + 1 = fmt.exponentBits := by
    have := fmt.he
    omega
  simp only [unpackExponent, BitVec.toNat_cast, BitVec.extractLsb_toNat,
    Nat.shiftRight_eq_div_pow, hwidth]

theorem toNat_unpackMantissa (b : BitVec fmt.numBits) :
    (unpackMantissa b).toNat =
      b.toNat % 2 ^ fmt.mantissaBitsWithoutImplicit := by
  have hwidth : fmt.mantissaBitsWithoutImplicit - 1 - 0 + 1 =
      fmt.mantissaBitsWithoutImplicit := by
    have := fmt.hm
    omega
  simp only [unpackMantissa, BitVec.toNat_cast, BitVec.extractLsb_toNat,
    Nat.shiftRight_zero, hwidth]

/-- The magnitude of a finite number by the fields of its bit pattern, in any
format. -/
theorem abs_exactOf_unpack (h : (unpack fmt b).isFinite = true) :
    let stored :=
      b.toNat / 2 ^ fmt.mantissaBitsWithoutImplicit % 2 ^ fmt.exponentBits
    |exactOf (unpack fmt b)| =
      (b.toNat % 2 ^ fmt.mantissaBitsWithoutImplicit +
        (if stored = 0 then 0 else 2 ^ fmt.mantissaBitsWithoutImplicit) : ℕ) *
        2 ^ ((max stored 1 : ℕ) -
          (fmt.exponentBias + fmt.mantissaBitsWithoutImplicit) : ℤ) := by
  dsimp only
  rw [← toNat_unpackExponent, ← toNat_unpackMantissa]
  have hunpacks := Binary.unpacks_unpack b
  generalize unpack fmt b = u at *
  cases hunpacks with
  | infinity hfull hnone => cases h
  | notANumber hfull hsome => cases h
  | zero hempty hnone =>
    have hstored : (unpackExponent b).toNat = 0 := congrArg BitVec.toNat hempty
    have hrest : (unpackMantissa b).toNat = 0 := congrArg BitVec.toNat hnone
    rw [exactOf_zero, if_pos hstored, hrest]
    simp
  | subnormal hempty hm =>
    have hstored : (unpackExponent b).toNat = 0 := congrArg BitVec.toNat hempty
    have hleast : ((max 0 1 : ℕ) : ℤ) = 1 := rfl
    rw [exactOf_finite, abs_signed, abs_of_nonneg (by positivity),
      if_pos hstored, hstored, add_zero, hleast]
  | normal hfull hsome hm =>
    have hstored : (unpackExponent b).toNat ≠ 0 :=
      fun hzero => hsome (BitVec.eq_of_toNat_eq hzero)
    rw [exactOf_finite, abs_signed, abs_of_nonneg (by positivity),
      if_neg hstored, max_eq_left (Nat.one_le_iff_ne_zero.mpr hstored),
      add_comm]

end Fields

theorem abs_exactOf_unpack_binary32 {b : BitVec 32}
    (h : (unpack .binary32 b).isFinite = true) :
    |exactOf (unpack .binary32 b)| =
      (b.toNat % 2 ^ 23 +
        (if b.toNat / 2 ^ 23 % 256 = 0 then 0 else 2 ^ 23) : ℕ) *
        2 ^ ((max (b.toNat / 2 ^ 23 % 256) 1 : ℕ) - 150 : ℤ) := by
  have hplace : ((Format.binary32.exponentBias : ℕ) : ℤ) + (23 : ℕ) = 150 := rfl
  have hmagnitude := abs_exactOf_unpack h
  dsimp only at hmagnitude
  rwa [hplace, show 2 ^ 8 = 256 from rfl] at hmagnitude

theorem abs_exactOf_unpack_binary64 {b : BitVec 64}
    (h : (unpack .binary64 b).isFinite = true) :
    |exactOf (unpack .binary64 b)| =
      (b.toNat % 2 ^ 52 +
        (if b.toNat / 2 ^ 52 % 2048 = 0 then 0 else 2 ^ 52) : ℕ) *
        2 ^ ((max (b.toNat / 2 ^ 52 % 2048) 1 : ℕ) - 1075 : ℤ) := by
  have hplace : ((Format.binary64.exponentBias : ℕ) : ℤ) + (52 : ℕ) = 1075 :=
    rfl
  have hmagnitude := abs_exactOf_unpack h
  dsimp only at hmagnitude
  rwa [hplace, show 2 ^ 11 = 2048 from rfl] at hmagnitude

theorem ofBitVec_unpackSign (b : BitVec 32) :
    Sign.ofBitVec (@unpackSign .binary32 b) =
      if b &&& 0x80000000#32 ≠ 0#32 then .negative else .positive := by
  have hmask : 0x80000000#32 = BitVec.twoPow 32 31 := rfl
  have hsign : @unpackSign .binary32 b = BitVec.ofBool (b.getLsbD 31) := by
    rw [Binary.unpackSign_eq]
    ext i hi
    grind
  rw [hmask, BitVec.and_twoPow, hsign]
  cases b.getLsbD 31 <;> rfl

theorem abs_of_sign {b : BitVec 32}
    (h : Sign.ofBitVec (@unpackSign .binary32 b) = .positive) :
    (unpack .binary32 b).abs = unpack .binary32 b := by
  have hunpacks := @Binary.unpacks_unpack .binary32 b
  generalize unpack .binary32 b = u at *
  cases hunpacks with
  | notANumber hfull hsome => rfl
  | _ =>
    rw [h]
    rfl

theorem neg_abs_of_sign {b : BitVec 32}
    (h : Sign.ofBitVec (@unpackSign .binary32 b) = .negative) :
    (unpack .binary32 b).abs.neg = unpack .binary32 b := by
  have hunpacks := @Binary.unpacks_unpack .binary32 b
  generalize unpack .binary32 b = u at *
  cases hunpacks with
  | notANumber hfull hsome => rfl
  | _ =>
    rw [h]
    rfl

/-- The magnitude with the sign in front of it. -/
theorem signed_abs_eq (x : Float32) :
    (if x.toBits &&& 0x80000000 ≠ 0 then -x.abs else x.abs) = x := by
  have hbit : x.toBits &&& 0x80000000 ≠ 0 ↔
      x.toBits.toBitVec &&& 0x80000000#32 ≠ 0#32 := by
    rw [Ne, Ne, ← UInt32.toBitVec_inj]
    rfl
  have hsign := ofBitVec_unpackSign x.toBits.toBitVec
  rw [if_congr hbit rfl rfl]
  apply eq_of_unpacked_eq
  split_ifs at hsign ⊢
  · rw [unpacked_neg, unpacked_abs]
    exact neg_abs_of_sign hsign
  · rw [unpacked_abs]
    exact abs_of_sign hsign

end PitchFollower.Single
