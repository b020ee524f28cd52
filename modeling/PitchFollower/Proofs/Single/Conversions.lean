import PitchFollower.Proofs.Single.Magnitude
import PitchFollower.Single.Approximation

/-!
# Conversions

A whole number turns into the nearest number, and a number into a whole number
by cutting off its fraction.  For numbers of moderate size both are exact, and
the approximate floor is the floor.
-/

namespace PitchFollower.Single

open Float.Model (UnpackedFloat)
open Float.Model.UnpackedFloat

/-! ## From whole numbers -/

theorem toFloat32_roundsTo (n : UInt64) : RoundsTo n.toNat n.toFloat32 := by
  change RoundsTo _
    (ofUnpacked (UnpackedFloat.normalize .binary32 n.toNat 0 .positive))
  apply roundsTo_ofUnpacked
  simpa using isNearest_normalize n.toNat 0 .positive

section Numbers

variable {n k : ℕ}

theorem ofNat_finite (hn : n < 2 ^ 64) :
    (ofNat n).isFinite = true ∧ exact (ofNat n) = nearest n := by
  have hround := toFloat32_roundsTo n.toUInt64
  have htoNat : n.toUInt64.toNat = n := UInt64.toNat_ofNat_of_lt' hn
  rw [htoNat] at hround
  apply hround.finite_of_abs_le (onGrid_zpow (e := 64) (by norm_num))
    (by norm_num)
  rw [abs_of_nonneg (Nat.cast_nonneg n)]
  exact_mod_cast hn.le

theorem exact_ofNat (hn : n ≤ 2 ^ 24) : exact (ofNat n) = n := by
  rw [(ofNat_finite (hn.trans_lt (by norm_num))).2]
  apply nearest_of_onGrid
  simpa using onGrid_natCast_mul_zpow (t := 0) hn (by norm_num)

theorem exact_ofNat_mono (hk : k < 2 ^ 64) (h : n ≤ k) :
    exact (ofNat n) ≤ exact (ofNat k) := by
  rw [(ofNat_finite (h.trans_lt hk)).2, (ofNat_finite hk).2]
  exact nearest_mono (by exact_mod_cast h)

theorem one_le_exact_ofNat (hpos : 0 < n) (hn : n < 2 ^ 64) :
    1 ≤ exact (ofNat n) := by
  rw [(ofNat_finite hn).2]
  exact onGrid_one.le_nearest (by exact_mod_cast hpos)

/-- A word of 32 bits is converted as a longer one. -/
theorem toFloat32_eq (word : UInt32) : word.toFloat32 = ofNat word.toNat := by
  have hword : word.toNat.toUInt64.toNat = word.toNat :=
    UInt64.toNat_ofNat_of_lt' (word.toNat_lt.trans (by decide))
  change ofUnpacked (UnpackedFloat.normalize .binary32 word.toNat 0 .positive) =
    ofUnpacked
      (UnpackedFloat.normalize .binary32 word.toNat.toUInt64.toNat 0 .positive)
  rw [hword]

theorem ofInt_nearest {i : ℤ} (hi : i.natAbs < 2 ^ 64) :
    (ofInt i).isFinite = true ∧ exact (ofInt i) = nearest i := by
  obtain ⟨hfinite, hexact⟩ := ofNat_finite hi
  rw [Nat.cast_natAbs] at hexact
  unfold ofInt
  split_ifs with hneg
  · rw [isFinite_neg, exact_neg, hexact, abs_of_neg hneg, Int.cast_neg,
      nearest_neg, neg_neg]
    exact ⟨hfinite, rfl⟩
  · rw [hexact, abs_of_nonneg (not_lt.mp hneg)]
    exact ⟨hfinite, rfl⟩

theorem ofInt_finite {i : ℤ} (hi : |i| ≤ 2 ^ 24) :
    (ofInt i).isFinite = true ∧ exact (ofInt i) = i := by
  have hnat : i.natAbs ≤ 2 ^ 24 := by
    rw [Int.abs_eq_natAbs] at hi
    exact_mod_cast hi
  have hgrid : OnGrid (i.natAbs : ℚ) := by
    simpa using onGrid_natCast_mul_zpow (t := 0) hnat (by norm_num)
  obtain ⟨hfinite, hexact⟩ := ofInt_nearest (hnat.trans_lt (by norm_num))
  refine ⟨hfinite, hexact.trans ?_⟩
  rcases Int.natAbs_eq i with h | h <;> rw [h]
  · exact nearest_of_onGrid hgrid
  · rw [Int.cast_neg, nearest_neg]
    exact congrArg _ (nearest_of_onGrid hgrid)

theorem exact_ofInt_mono {i j : ℤ} (hi : i.natAbs < 2 ^ 64)
    (hj : j.natAbs < 2 ^ 64) (h : i ≤ j) :
    exact (ofInt i) ≤ exact (ofInt j) := by
  rw [(ofInt_nearest hi).2, (ofInt_nearest hj).2]
  exact nearest_mono (by exact_mod_cast h)

end Numbers

/-! ## To whole numbers -/

/-- Shifting a mantissa to the exponent zero cuts off the fraction. -/
theorem roundToInt_eq (s : Sign) (m : ℕ) (e : ℤ) :
    roundToInt s m e = s.apply ⌊(m * 2 ^ e : ℚ)⌋ := by
  have hshift : roundToInt s m e = s.apply
      (ExtendedMantissa.ofMantissaAndAccuracy (decreaseExponent m e 0).1
        .exact >>>
        (0 - (decreaseExponent m e 0).2).toNat).mantissa := rfl
  rw [hshift, ← ((standsFor_exact _).shiftRight _).floor_eq]
  congr 2
  rcases le_total 0 e with he | he
  · obtain ⟨k, rfl⟩ := Int.eq_ofNat_of_zero_le he
    have hexponent : (decreaseExponent m k 0).2 = 0 := by
      simp [decreaseExponent]
    rw [decreaseExponent_fst (k := k) m (by omega), hexponent]
    simp
  · obtain ⟨k, hk⟩ := Int.eq_ofNat_of_zero_le (neg_nonneg.mpr he)
    obtain rfl : e = -k := by omega
    have hexponent : (decreaseExponent m (-k) 0).2 = -k := by
      simp [decreaseExponent]
    rw [decreaseExponent_fst (k := 0) m (by omega), hexponent]
    simp [zpow_neg, div_eq_mul_inv]

section Numbers

variable {x : Float32}

/-- A finite number that is not negative is cut off to its floor, whatever the
ends of the range are that other numbers are clamped to. -/
theorem toInt_eq_floor (hx : x.isFinite = true) (hnonneg : 0 ≤ exact x)
    (low high : ℤ) : (unpacked x).toInt low high = ⌊exact x⌋ := by
  rcases zero_or_finite_of_isFinite hx with ⟨s, hux⟩ | ⟨s, m, e, hm, hux⟩
  · rw [exact, hux]
    exact Int.floor_zero.symm
  · rw [exact, hux, exactOf_finite] at hnonneg ⊢
    refine (roundToInt_eq s m e).trans ?_
    cases s with
    | positive => rfl
    | negative =>
      rw [signed, neg_nonneg] at hnonneg
      exact absurd hnonneg (not_le.mpr (by positivity))

theorem toNat_ofNatClamp (n : ℕ) :
    (UInt64.ofNatClamp n).toNat = min n (2 ^ 64 - 1) := by
  unfold UInt64.ofNatClamp
  split_ifs with h
  · change n = _
    norm_num at h
    omega
  · norm_num at h ⊢
    omega

/-- A number too large for a word becomes the largest one. -/
theorem toNat_toUInt64_eq_min (hx : x.isFinite = true) (hnonneg : 0 ≤ exact x) :
    (x.toUInt64.toNat : ℤ) = min ⌊exact x⌋ (2 ^ 64 - 1) := by
  have hfloor : (0 : ℤ) ≤ ⌊exact x⌋ := Int.floor_nonneg.mpr hnonneg
  have hword : x.toUInt64 =
      UInt64.ofNatClamp ((unpacked x).toInt 0 (UInt64.size - 1)).toNat := rfl
  rw [hword, toInt_eq_floor hx hnonneg, toNat_ofNatClamp]
  omega

theorem toNat_toUInt8 (hx : x.isFinite = true) (hnonneg : 0 ≤ exact x)
    (hmost : exact x < 2 ^ 8) : (x.toUInt8.toNat : ℤ) = ⌊exact x⌋ := by
  have hfloor : (0 : ℤ) ≤ ⌊exact x⌋ := Int.floor_nonneg.mpr hnonneg
  have hsize : ⌊exact x⌋.toNat < UInt8.size := by
    have hlt : ⌊exact x⌋ < 2 ^ 8 := Int.floor_lt.mpr (by exact_mod_cast hmost)
    norm_num at hlt ⊢
    omega
  have hbyte : x.toUInt8 =
      UInt8.ofNatClamp ((unpacked x).toInt 0 (UInt8.size - 1)).toNat := rfl
  rw [hbyte, toInt_eq_floor hx hnonneg, UInt8.ofNatClamp_eq_ofNat _ hsize,
    UInt8.toNat_ofNat_of_lt' hsize, Int.toNat_of_nonneg hfloor]

theorem wholePart_eq_min (hx : x.isFinite = true) :
    wholePart x =
      if exact x < 0 then
        -min ⌊-exact x⌋ (2 ^ 64 - 1)
      else min ⌊exact x⌋ (2 ^ 64 - 1) := by
  unfold wholePart
  simp only [neg_iff hx]
  split_ifs with hneg
  · rw [toNat_toUInt64_eq_min ((isFinite_neg x).trans hx)
      (by rw [exact_neg]; linarith), exact_neg]
  · exact toNat_toUInt64_eq_min hx (not_lt.mp hneg)

theorem wholePart_eq (hx : x.isFinite = true) (hmost : |exact x| < 2 ^ 64) :
    wholePart x = if exact x < 0 then ⌈exact x⌉ else ⌊exact x⌋ := by
  rw [abs_lt] at hmost
  have hlow : ⌊-exact x⌋ < 2 ^ 64 := Int.floor_lt.mpr (by push_cast; linarith)
  have hhigh : ⌊exact x⌋ < 2 ^ 64 := Int.floor_lt.mpr (by push_cast; linarith)
  have hceil : ⌈exact x⌉ = -⌊-exact x⌋ := by rw [Int.floor_neg, neg_neg]
  rw [wholePart_eq_min hx]
  split_ifs <;> omega

theorem wholePart32_eq (hx : x.isFinite = true) (hmost : |exact x| < 2 ^ 24) :
    wholePart32 x = if exact x < 0 then ⌈exact x⌉ else ⌊exact x⌋ := by
  have hwhole := wholePart_eq hx (hmost.trans (by norm_num))
  rw [abs_lt] at hmost
  have hleast : -2 ^ 24 ≤ ⌊exact x⌋ :=
    Int.le_floor.mpr (by push_cast; exact hmost.1.le)
  have hceil : ⌈exact x⌉ ≤ 2 ^ 24 :=
    Int.ceil_le.mpr (by push_cast; exact hmost.2.le)
  have hle := Int.floor_le_ceil (exact x)
  rw [wholePart32, wholePartWithin, hwhole]
  split_ifs <;> omega

/-- A number below a whole number in magnitude stays so when its fraction is cut
off. -/
theorem abs_wholePart32_lt (hx : x.isFinite = true) {n : ℕ} (hn : n ≤ 2 ^ 24)
    (hlt : |exact x| < n) : |wholePart32 x| < n := by
  have hmost : (n : ℚ) ≤ 2 ^ 24 := by exact_mod_cast hn
  have hpos : (0 : ℤ) < n := by exact_mod_cast (abs_nonneg _).trans_lt hlt
  rw [wholePart32_eq hx (hlt.trans_le hmost)]
  rw [abs_lt] at hlt ⊢
  split_ifs with hneg
  · refine ⟨Int.lt_ceil.mpr (by push_cast; exact hlt.1), ?_⟩
    exact (Int.ceil_le.mpr (by exact_mod_cast hneg.le)).trans_lt hpos
  · refine ⟨(neg_lt_zero.mpr hpos).trans_le
      (Int.floor_nonneg.mpr (not_lt.mp hneg)), ?_⟩
    exact Int.floor_lt.mpr (by push_cast; exact hlt.2)

/-- A multiple of a quarter. -/
theorem onGrid_quarters {n : ℕ} {q : ℚ} (hn : n ≤ 2 ^ 24) (h : 4 * q = n) :
    OnGrid q := by
  have hq : q = n * 2 ^ (-2 : ℤ) := by
    norm_num
    linarith
  rw [hq]
  exact onGrid_natCast_mul_zpow hn (by norm_num)

theorem onGrid_intCast {i : ℤ} (hi : |i| < 2 ^ 24) : OnGrid i :=
  ⟨i, 0, hi, by norm_num, by norm_num⟩

theorem exact_sub_one (hx : x.isFinite = true) {i : ℤ} (hexact : exact x = i)
    (hi : |i - 1| < 2 ^ 24) :
    (x - 1).isFinite = true ∧ exact (x - 1) = (i - 1 : ℤ) := by
  have hgrid := onGrid_intCast hi
  have hsub := sub_roundsTo hx (show (1 : Float32).isFinite = true from rfl)
  rw [hexact, exact_one, ← Int.cast_one, ← Int.cast_sub] at hsub
  have habs : |((i - 1 : ℤ) : ℚ)| ≤ 2 ^ (24 : ℤ) := by exact_mod_cast hi.le
  obtain ⟨hfinite, hexact'⟩ :=
    hsub.finite_of_abs_le (onGrid_zpow (e := 24) (by norm_num))
      (by norm_num) habs
  exact ⟨hfinite, hexact'.trans (nearest_of_onGrid hgrid)⟩

namespace Approximate

/-- For a number that has room for a fraction the floor is exact. -/
theorem floor_finite (hx : x.isFinite = true) (hmost : |exact x| < 2 ^ 23) :
    (floor x).isFinite = true ∧ exact (floor x) = ⌊exact x⌋ := by
  have hwhole := wholePart32_eq hx (hmost.trans (by norm_num))
  rw [abs_lt] at hmost
  have hleast : -2 ^ 23 ≤ ⌊exact x⌋ :=
    Int.le_floor.mpr (by push_cast; exact hmost.1.le)
  have hfloor : ⌊exact x⌋ ≤ 2 ^ 23 :=
    Int.floor_le_iff.mpr (by push_cast; linarith)
  have hlow : ⌊exact x⌋ ≤ wholePart32 x := by
    rw [hwhole]
    split_ifs
    · exact Int.floor_le_ceil _
    · exact le_rfl
  have hhigh : wholePart32 x ≤ ⌊exact x⌋ + 1 := by
    rw [hwhole]
    split_ifs
    · exact Int.ceil_le_floor_add_one _
    · omega
  have hrange : |wholePart32 x| ≤ 2 ^ 24 ∧ |wholePart32 x - 1| < 2 ^ 24 := by
    rw [abs_le, abs_lt]
    omega
  obtain ⟨hfinite, hexact⟩ := ofInt_finite hrange.1
  unfold floor
  dsimp only
  simp only [lt_iff hx hfinite]
  rw [hexact]
  split_ifs with hbelow
  · obtain ⟨hfinite', hexact'⟩ := exact_sub_one hfinite hexact hrange.2
    have hlt : ⌊exact x⌋ < wholePart32 x := Int.floor_lt.mpr hbelow
    have heq : wholePart32 x - 1 = ⌊exact x⌋ := by omega
    exact ⟨hfinite', hexact'.trans (by rw [heq])⟩
  · have hle : wholePart32 x ≤ ⌊exact x⌋ := Int.le_floor.mpr (not_lt.mp hbelow)
    have heq : wholePart32 x = ⌊exact x⌋ := le_antisymm hle hlow
    exact ⟨hfinite, hexact.trans (by rw [heq])⟩

theorem signBit_cases (x : Float32) :
    x.toBits &&& 0x80000000 = 0x80000000 ∨ x.toBits &&& 0x80000000 = 0 := by
  have hmask : (0x80000000 : UInt32).toBitVec = BitVec.twoPow 32 31 := rfl
  rw [← UInt32.toBitVec_inj, ← UInt32.toBitVec_inj, UInt32.toBitVec_and, hmask,
    BitVec.and_twoPow]
  cases x.toBits.toBitVec.getLsbD 31
  · exact .inr rfl
  · exact .inl rfl

/-- Half a unit, on either side of zero. -/
theorem within_withSignOf_half (x : Float32) :
    Within (1 / 2) (withSignOf x 0.5) := by
  unfold withSignOf
  rcases signBit_cases x with hsign | hsign <;> rw [hsign]
  · exact ⟨by decide +kernel, by decide +kernel⟩
  · exact ⟨by decide +kernel, by decide +kernel⟩

theorem natAbs_wholePart32_lt (x : Float32) :
    (wholePart32 x).natAbs < 2 ^ 64 := by
  rw [wholePart32, wholePartWithin]
  omega

theorem isFinite_round (x : Float32) : (round x).isFinite = true :=
  (ofInt_nearest (natAbs_wholePart32_lt _)).1

/-- A magnitude that is less than `n` by more than half a unit is rounded to
less than `n`.  A quarter of a unit is what the sum itself may be rounded by. -/
theorem exists_round_eq {n : ℕ} (hn : 1 ≤ n) (hmost : n ≤ 2 ^ 22)
    (hx : Within (n - 3 / 4) x) :
    ∃ i : ℤ, |i| < n ∧ (round x).isFinite = true ∧ exact (round x) = i := by
  have hmost' : (n : ℚ) ≤ 2 ^ 22 := by exact_mod_cast hmost
  have hgrid : OnGrid ((n : ℚ) - 1 / 4) := by
    apply onGrid_quarters (n := 4 * n - 1) (by omega)
    rw [Nat.cast_sub (by omega)]
    push_cast
    ring
  have hsum :=
    hx.add (within_withSignOf_half x) hgrid (by linarith) (by linarith)
  have hlt := abs_wholePart32_lt hsum.isFinite (hmost.trans (by norm_num))
    (hsum.abs_le.trans_lt (by linarith))
  exact ⟨_, hlt,
    ofInt_finite (hlt.le.trans (by exact_mod_cast hmost.trans (by norm_num)))⟩

end Approximate

end Numbers

end PitchFollower.Single
