import PitchFollower.Proofs.Decimal.Readback
import PitchFollower.Proofs.Single.Monotone

/-!
# Numerals on which two readers agree

Scaling in double precision is not the same as taking the nearest double.  Of
few digits with a small power of ten both make the same double.  Otherwise the
two doubles are both close to what is written, and single precision tells them
apart only if a midpoint is as close.  With any number of digits the first step
leaves some out and rounds the others, which brings the two doubles a little
further apart.
-/

namespace PitchFollower

namespace Decimal

open Single (RoundsTo)

/-- Few digits, and a power of ten that is small, or at least no midpoint close
to the value. -/
structure IsClear (d : Decimal) : Prop where
  few : d.significand < 2 ^ 53
  clear : d.exponent.natAbs ≤ 22 ∨
      d.exponent.natAbs ≤ 50 ∧ Single.nearest d.value ≠ 0 ∧
    ∀ r, |r - d.value| ≤ drift * d.value →
    Single.nearest r = Single.nearest d.value

section Clear

variable {d : Decimal}

theorem IsClear.natAbs_exponent_le (h : d.IsClear) :
    d.exponent.natAbs ≤ 50 := by
  rcases h.clear with hsmall | ⟨hmoderate, -⟩
  · omega
  · exact hmoderate

/-- A power of ten that is not too small leaves something of the digits in
single precision, also if they are rounded before. -/
theorem nearest_ne_zero_of_error (hpos : 0 < d.significand)
    (hk : d.exponent.natAbs ≤ 22) {r : ℚ}
    (herror : |r - d.value| ≤ drift * d.value) : Single.nearest r ≠ 0 := by
  have hgrid : Single.OnGrid (2 ^ (-126 : ℤ)) :=
    Single.onGrid_zpow (by norm_num)
  have hdrift : drift ≤ 1 / 2 := by norm_num [drift]
  have hone : (1 : ℚ) ≤ d.significand := by exact_mod_cast hpos
  have hvalue : 1 * 10 ^ (-22 : ℤ) ≤ d.value :=
    mul_le_mul hone (zpow_le_zpow_right₀ (by norm_num) (by omega)) (by norm_num)
      (by positivity)
  have hleast : (2 : ℚ) ^ (-126 : ℤ) ≤ r := by
    have hhalf := mul_le_mul_of_nonneg_right hdrift (value_nonneg d)
    have hlow := (abs_le.mp herror).1
    norm_num at hvalue ⊢
    linarith
  exact ((Single.two_zpow_pos (-126)).trans_le (hgrid.le_nearest hleast)).ne'

theorem IsClear.narrow_eq (h : d.IsClear) (hpos : 0 < d.significand) :
    ∃ r, d.scaled? = some r ∧
      signed false (narrow (Double.unpacked r)) =
        signed false (narrow d.nearestDouble) := by
  have hk : d.exponent.natAbs ≤ 70 := h.natAbs_exponent_le.trans (by norm_num)
  obtain ⟨r, hscaled, hnormal, herror, hrounds⟩ :=
    exists_scalesTo_of_few hpos hk h.few
  have hmoderate := moderate_value hpos hk (h.few.trans (by norm_num))
  have hdouble := nearestDouble_roundsTo hpos hmoderate
  have hdrift : 1 / 2 ^ 53 ≤ drift := by norm_num [drift]
  have herror' : |Single.exactOf d.nearestDouble - d.value| ≤ drift * d.value :=
    calc |Single.exactOf d.nearestDouble - d.value| ≤ d.value / 2 ^ 53 :=
          hdouble.error
      _ = 1 / 2 ^ 53 * d.value := by ring
      _ ≤ drift * d.value := mul_le_mul_of_nonneg_right hdrift (value_nonneg _)
  have hnearest :
      Single.nearest (Double.exact r) =
        Single.nearest (Single.exactOf d.nearestDouble) ∧
        Single.nearest (Double.exact r) ≠ 0 := by
    rcases h.clear with hsmall | ⟨-, hne, hclear⟩
    · have hround := hrounds hsmall
      have hsameDouble : Double.exact r = Single.exactOf d.nearestDouble :=
        le_antisymm (hround.mono hdouble le_rfl) (hdouble.mono hround le_rfl)
      exact ⟨by rw [hsameDouble], nearest_ne_zero_of_error hpos hsmall herror⟩
    · rw [hclear _ herror, hclear _ herror']
      exact ⟨rfl, hne⟩
  exact ⟨r, hscaled,
    (narrow_roundsTo hnormal).eq_of_nearest_eq (narrow_roundsTo hdouble.normal)
    hnearest.1 hnearest.2⟩

theorem bits_scaled_zero : ∀ j < 51,
    (∀ d ∈ [(⟨0, (j : ℕ)⟩ : Decimal), ⟨0, -(j : ℕ)⟩],
      d.scaled?.map (fun r =>
        (signed false (narrow (Double.unpacked r))).toBits) = some 0) := by
  decide +kernel

/-- No digits are zero with every power of ten. -/
theorem narrow_eq_of_zero {k : ℤ} (hk : k.natAbs ≤ 50) :
    ∃ r, (⟨0, k⟩ : Decimal).scaled? = some r ∧
      signed false (narrow (Double.unpacked r)) =
        signed false (narrow (⟨0, k⟩ : Decimal).nearestDouble) := by
  have hmem : (⟨0, k⟩ : Decimal) ∈ [(⟨0, (k.natAbs : ℕ)⟩ : Decimal),
      ⟨0, -(k.natAbs : ℕ)⟩] := by
    rcases Int.natAbs_eq k with h | h
    · rw [← h]
      exact List.mem_cons_self
    · rw [← h]
      exact List.mem_cons_of_mem _ List.mem_cons_self
  obtain ⟨r, hr, hbits⟩ :=
    Option.map_eq_some_iff.mp (bits_scaled_zero _ (by omega) _ hmem)
  have hzero :
      (signed false (narrow (⟨0, k⟩ : Decimal).nearestDouble)).toBits = 0 := by
    rw [nearestDouble, nearest, if_pos rfl]
    decide +kernel
  exact ⟨r, hr, Single.eq_of_toBits_eq (hbits.trans hzero.symm)⟩

/-- What is written clearly is scaled to what the nearest double is rounded
to. -/
theorem IsClear.exists_scaled (h : d.IsClear) :
    ∃ r, d.scaled? = some r ∧
      signed false (narrow (Double.unpacked r)) =
        signed false (narrow d.nearestDouble) := by
  obtain ⟨n, k⟩ := d
  rcases Nat.eq_zero_or_pos n with rfl | hpos
  · exact narrow_eq_of_zero h.natAbs_exponent_le
  · exact h.narrow_eq hpos

end Clear

/-! ## Values away from the midpoints -/

/-- How far both readers may end up from a value with any number of digits,
relative to the value. -/
def blur : ℚ :=
  1 / 2 ^ 51

/-- Everything as close to the value as that is rounded to one and the same
finite number other than zero.  Rounding keeps the order, so the two ends
tell. -/
structure IsApart (q : ℚ) : Prop where
  pos : 0 < Single.nearest ((1 - blur) * q)
  lt : Single.nearest ((1 + blur) * q) < 2 ^ 128
  same : Single.nearest ((1 - blur) * q) = Single.nearest ((1 + blur) * q)

instance : DecidablePred IsApart := fun _ =>
  decidable_of_iff (_ ∧ _ ∧ _) ⟨fun ⟨hpos, hlt, hsame⟩ => ⟨hpos, hlt, hsame⟩,
    fun ⟨hpos, hlt, hsame⟩ => ⟨hpos, hlt, hsame⟩⟩

section Apart

variable {q r : ℚ}

theorem IsApart.nearest_eq (h : IsApart q) (hr : |r - q| ≤ blur * q) :
    Single.nearest r = Single.nearest ((1 - blur) * q) := by
  obtain ⟨hlow, hhigh⟩ := abs_le.mp hr
  have hleast : (1 - blur) * q ≤ r := by linarith
  have hmost : r ≤ (1 + blur) * q := by linarith
  exact le_antisymm ((Single.nearest_mono hmost).trans h.same.ge)
    (Single.nearest_mono hleast)

/-- Two numbers as close to the value as that make the same single precision
number. -/
theorem IsApart.eq_of_roundsTo (h : IsApart q) {s : ℚ} {x y : Float32}
    (hx : RoundsTo r x) (hy : RoundsTo s y) (hr : |r - q| ≤ blur * q)
    (hs : |s - q| ≤ blur * q) : x = y := by
  have hne : Single.nearest r ≠ 0 := by
    rw [h.nearest_eq hr]
    exact h.pos.ne'
  exact hx.eq_of_nearest_eq hy
    ((h.nearest_eq hr).trans (h.nearest_eq hs).symm) hne

/-- Such a value lies in the range of single precision. -/
theorem IsApart.bounds (h : IsApart q) :
    2 ^ (-150 : ℤ) ≤ q ∧ q ≤ 2 ^ (128 : ℤ) := by
  have hblur : 0 < blur ∧ blur < 1 := by norm_num [blur]
  have hpos : 0 < (1 - blur) * q := by
    by_contra hneg
    have hle := Single.nearest_mono (not_lt.mp hneg)
    rw [Single.nearest_zero] at hle
    exact h.pos.not_ge hle
  have hq : 0 < q := (mul_pos_iff_of_pos_left (by linarith)).mp hpos
  have hshare : 0 < blur * q := mul_pos hblur.1 hq
  constructor
  · by_contra hsmall
    have hlow : (1 - blur) * q < 2 ^ (-150 : ℤ) := by
      linarith [not_le.mp hsmall]
    exact h.pos.ne' (Single.nearest_eq_zero hpos hlow)
  · by_contra hlarge
    have hgrid : Single.OnGrid (2 ^ (128 : ℤ)) :=
      Single.onGrid_zpow (by norm_num)
    have hhigh : (2 : ℚ) ^ (128 : ℤ) ≤ (1 + blur) * q := by
      linarith [not_le.mp hlarge]
    refine absurd h.lt (not_lt.mpr ?_)
    exact_mod_cast hgrid.le_nearest hhigh

end Apart

section Word

variable {d : Decimal}

theorem significand_pos_of_value (h : 0 < d.value) : 0 < d.significand := by
  by_contra hzero
  rw [value, Nat.eq_zero_of_not_pos hzero, Nat.cast_zero, zero_mul] at h
  exact h.false

/-- A word of digits has a moderate power of ten behind it if its value is in
the range of single precision, or nearly. -/
theorem natAbs_exponent_le_of_value (hword : d.significand < 2 ^ 64)
    (hlow : 2 ^ (-151 : ℤ) ≤ d.value) (hhigh : d.value ≤ 2 ^ (129 : ℤ)) :
    0 < d.significand ∧ d.exponent.natAbs ≤ 70 := by
  have hpos :=
    significand_pos_of_value ((Single.two_zpow_pos (-151)).trans_le hlow)
  have hmost : d.exponent < 70 := by
    rw [← zpow_lt_zpow_iff_right₀ (by norm_num : (1 : ℚ) < 10)]
    calc (10 : ℚ) ^ d.exponent ≤ d.value := le_mul_ten_zpow hpos _
      _ ≤ 2 ^ (129 : ℤ) := hhigh
      _ < 10 ^ (70 : ℤ) := by norm_num
  have hleast : -70 < d.exponent := by
    have hsignificand : (d.significand : ℚ) < 2 ^ (64 : ℤ) := by
      exact_mod_cast hword
    have hvalue : (2 : ℚ) ^ (-151 : ℤ) < 2 ^ (64 : ℤ) * 10 ^ d.exponent :=
      hlow.trans_lt (mul_lt_mul_of_pos_right hsignificand (ten_zpow_pos _))
    rw [← zpow_lt_zpow_iff_right₀ (by norm_num : (1 : ℚ) < 10),
      ← mul_lt_mul_iff_of_pos_left (Single.two_zpow_pos 64)]
    calc (2 : ℚ) ^ (64 : ℤ) * 10 ^ (-70 : ℤ) ≤ 2 ^ (-151 : ℤ) := by norm_num
      _ < 2 ^ (64 : ℤ) * 10 ^ d.exponent := hvalue
  exact ⟨hpos, by omega⟩

/-- What is scaled in the place of the value is close to it. -/
theorem IsApart.exists_scaled {q : ℚ} (h : IsApart q)
    (hword : d.significand < 2 ^ 64)
    (hd : |q - d.value| ≤ d.value / leastFull) :
    ∃ r, d.scaled? = some r ∧ Double.IsNormal (Double.unpacked r) ∧
      |Double.exact r - q| ≤ blur * q := by
  obtain ⟨hlow, hhigh⟩ := h.bounds
  have hleft : d.value / leastFull ≤ 1 / 2 ^ 60 * d.value := by
    rw [div_eq_mul_one_div, mul_comm]
    exact mul_le_mul_of_nonneg_right (by norm_num [leastFull]) (value_nonneg d)
  have hclose := abs_le.mp (hd.trans hleft)
  have hleast : (2 : ℚ) ^ (-150 : ℤ) = 2 * 2 ^ (-151 : ℤ) := by norm_num
  have hmost : (2 : ℚ) ^ (129 : ℤ) = 2 * 2 ^ (128 : ℤ) := by norm_num
  have hpower := Single.two_zpow_pos (-151)
  obtain ⟨hpos, hk⟩ :=
    natAbs_exponent_le_of_value hword (by linarith) (by linarith)
  obtain ⟨r, hscaled, hnormal, herror⟩ := exists_scaled_near hpos hk hword
  refine ⟨r, hscaled, hnormal, ?_⟩
  have hblur : blur = 8 / 2 ^ 54 := by norm_num [blur]
  have hnear := abs_le.mp herror
  rw [hblur, abs_le]
  constructor <;> linarith

/-- The nearest double is close to the value as well. -/
theorem IsApart.nearestDouble_spec (h : IsApart d.value) :
    Double.IsNormal d.nearestDouble ∧
      |Single.exactOf d.nearestDouble - d.value| ≤ blur * d.value := by
  obtain ⟨hlow, hhigh⟩ := h.bounds
  have hpos : 0 < d.value := (Single.two_zpow_pos (-150)).trans_le hlow
  have hmoderate : Double.Moderate d.value :=
    ⟨(zpow_le_zpow_right₀ (by norm_num) (by norm_num)).trans hlow,
      hhigh.trans_lt (zpow_lt_zpow_right₀ (by norm_num) (by norm_num))⟩
  have hround :=
    nearestDouble_roundsTo (significand_pos_of_value hpos) hmoderate
  have hblur : 1 / 2 ^ 53 ≤ blur := by norm_num [blur]
  refine ⟨hround.normal, hround.error.trans ?_⟩
  calc d.value / 2 ^ 53 = 1 / 2 ^ 53 * d.value := by ring
    _ ≤ blur * d.value := mul_le_mul_of_nonneg_right hblur hpos.le

end Word

end Decimal

namespace Numeral

variable {n : Numeral}

theorem signed_eq_of_eq {u v : Float.Model.UnpackedFloat} (negative : Bool)
    (h : Decimal.signed false u = Decimal.signed false v) :
    Decimal.signed negative u = Decimal.signed negative v := by
  cases negative with
  | false => exact h
  | true => exact congrArg (- ·) h

/-- An integer of few digits is exact in double precision. -/
theorem nearest_integer_eq {m : ℕ} (hm : m < 2 ^ 53) :
    Decimal.signed false (Decimal.nearest .binary32 ⟨m, 0⟩) =
      Decimal.signed false (Decimal.narrow (Decimal.nearestDouble ⟨m, 0⟩)) := by
  rcases Nat.eq_zero_or_pos m with rfl | hpos
  · rfl
  · have hround := Decimal.toSingle_roundsTo ⟨m, 0⟩
    have hmoderate :=
      Decimal.moderate_value (d := ⟨m, 0⟩) hpos (by norm_num)
        (hm.trans (by norm_num))
    have hdouble := Decimal.nearestDouble_roundsTo (d := ⟨m, 0⟩) hpos hmoderate
    have hvalue : (⟨m, 0⟩ : Decimal).value = m * 2 ^ (0 : ℤ) := by
      simp [Decimal.value]
    have hnarrow := Decimal.narrow_roundsTo hdouble.normal
    rw [hdouble.exact m 0 hm hvalue] at hnarrow
    refine hround.eq_of_nearest_eq hnarrow rfl ?_
    apply Decimal.nearest_ne_zero_of_error (d := ⟨m, 0⟩) hpos (by norm_num)
    rw [sub_self, abs_zero]
    exact mul_nonneg (by norm_num [Decimal.drift]) (Decimal.value_nonneg _)

theorem magnitude_of_isIntegral (h : n.IsIntegral) :
    n.magnitude = ⟨Decimal.ofDigits n.whole, 0⟩ := by
  rw [magnitude, h.1, h.2, decimalOf, List.append_nil]
  rfl

/-- The integer that a numeral writes is its magnitude with its sign. -/
theorem sign_of_toInt? {i : ℤ} (h : n.toInt? = some i) :
    n.IsIntegral ∧ i.natAbs = Decimal.ofDigits n.whole ∧
      decide (i < 0) = n.negative := by
  unfold toInt? at h
  dsimp only at h
  split_ifs at h with hintegral hnegative hzero
  · obtain rfl := Option.some.inj h
    refine ⟨hintegral, by omega, ?_⟩
    rw [hnegative, decide_eq_true_iff]
    omega
  · obtain rfl := Option.some.inj h
    refine ⟨hintegral, by omega, ?_⟩
    rw [Bool.not_eq_true] at hnegative
    rw [hnegative, decide_eq_false_iff_not]
    omega

/-- The two ways to read a numeral agree on what is written clearly.  An integer
that a word holds is rounded to single precision at once. -/
theorem scaledSingle?_of_isClear (h : n.magnitude.IsClear) :
    n.scaledSingle? = some n.toSingle := by
  unfold scaledSingle? toSingle
  cases hword : n.word? with
  | none =>
    have hleading : n.leading = n.magnitude :=
      Decimal.leading_eq (h.few.le.trans (by norm_num))
    obtain ⟨r, hscaled, hnarrow⟩ := h.exists_scaled
    rw [hleading, hscaled]
    exact congrArg some (signed_eq_of_eq _ hnarrow)
  | some i =>
    obtain ⟨hint, -⟩ := Option.filter_eq_some_iff.mp hword
    obtain ⟨hintegral, hmagnitude, hsign⟩ := sign_of_toInt? hint
    have hfew := h.few
    rw [magnitude_of_isIntegral hintegral] at hfew ⊢
    dsimp only
    rw [hsign, hmagnitude]
    exact congrArg some (signed_eq_of_eq _ (nearest_integer_eq hfew))

/-- Both ways also agree on any number of digits that write a value away from
the midpoints. -/
theorem scaledSingle?_of_isApart
    (hdigits : ∀ c ∈ n.whole ++ n.fraction, c.isDigit = true)
    (h : Decimal.IsApart n.magnitude.value) :
    n.scaledSingle? = some n.toSingle := by
  obtain ⟨hdouble, hnear⟩ := h.nearestDouble_spec
  have hnarrow := Decimal.narrow_roundsTo hdouble
  unfold scaledSingle? toSingle
  cases hword : n.word? with
  | none =>
    obtain ⟨hmost, hclose⟩ := Decimal.leading_spec (n.exponent.getD 0) hdigits
    obtain ⟨r, hscaled, hnormal, herror⟩ :=
      h.exists_scaled (hmost.trans_lt (by norm_num)) hclose
    have hleading : n.leading.scaled? = some r := hscaled
    have hsame :=
      h.eq_of_roundsTo (Decimal.narrow_roundsTo hnormal) hnarrow herror hnear
    rw [hleading]
    exact congrArg some (signed_eq_of_eq _ hsame)
  | some i =>
    obtain ⟨hint, -⟩ := Option.filter_eq_some_iff.mp hword
    obtain ⟨hintegral, hmagnitude, hsign⟩ := sign_of_toInt? hint
    rw [magnitude_of_isIntegral hintegral] at h hnear hnarrow ⊢
    have hexact : |Decimal.value ⟨Decimal.ofDigits n.whole, 0⟩ -
        Decimal.value ⟨Decimal.ofDigits n.whole, 0⟩| ≤
          Decimal.blur * Decimal.value ⟨Decimal.ofDigits n.whole, 0⟩ := by
      rw [sub_self, abs_zero]
      exact (abs_nonneg _).trans hnear
    have hsame :=
      h.eq_of_roundsTo (Decimal.toSingle_roundsTo _) hnarrow hexact hnear
    dsimp only
    rw [hsign, hmagnitude]
    exact congrArg some (signed_eq_of_eq _ hsame)

/-- The numerals whose nearest double is rounded to what they are scaled to: few
digits that write their value clearly, and any number of digits that write one
away from the midpoints. -/
inductive IsPlain (n : Numeral) : Prop
  | clear (h : n.magnitude.IsClear)
  | apart (hdigits : ∀ c ∈ n.whole ++ n.fraction, c.isDigit = true)
      (h : Decimal.IsApart n.magnitude.value)

/-- What a numeral stands for: the number it is scaled to, and also the one that
its nearest double rounds to if it is plain. -/
def StandsFor (n : Numeral) (x : Float32) : Prop :=
  n.scaledSingle? = some x ∨ n.IsPlain ∧ n.toSingle = x

theorem StandsFor.scaledSingle?_eq {x : Float32} (h : n.StandsFor x) :
    n.scaledSingle? = some x := by
  rcases h with hscaled | ⟨hclear | ⟨hdigits, hapart⟩, rfl⟩
  · exact hscaled
  · exact scaledSingle?_of_isClear hclear
  · exact scaledSingle?_of_isApart hdigits hapart

end Numeral

end PitchFollower
