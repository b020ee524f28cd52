import PitchFollower.Proofs.Single.Monotone
import PitchFollower.Proofs.Wave.Bytes
import PitchFollower.Proofs.Wave.Frames

/-!
# Recordings read back

A sample is scaled by 32767 when it is written and by 32768 when it is read, and
loses the fraction in between.  What is read is therefore a little nearer to
zero than what was written, but never by two steps of the format or more.  It
keeps the order and the symmetry of the samples, for infinite samples too, which
are cut off like all others beyond full scale.
-/

namespace PitchFollower.Wave

open Single
open Float.Model.UnpackedFloat

/-! ## Samples without their fractions -/

/-- A rational number without its fraction. -/
def cutOff (q : ℚ) : ℤ :=
  if q < 0 then ⌈q⌉ else ⌊q⌋

theorem cutOff_neg (q : ℚ) : cutOff (-q) = -cutOff q := by
  unfold cutOff
  rcases lt_trichotomy q 0 with h | rfl | h
  · rw [if_pos h, if_neg (by linarith), Int.floor_neg]
  · simp
  · rw [if_neg h.not_gt, if_pos (by linarith), Int.ceil_neg]

theorem cutOff_mono {q r : ℚ} (h : q ≤ r) : cutOff q ≤ cutOff r := by
  unfold cutOff
  split_ifs with hq hr hr
  · exact Int.ceil_le_ceil h
  · exact (Int.ceil_le.mpr (by exact_mod_cast hq.le)).trans
      (Int.floor_nonneg.mpr (not_lt.mp hr))
  · linarith
  · exact Int.floor_le_floor h

theorem cutOff_intCast (i : ℤ) : cutOff i = i := by
  simp [cutOff]

theorem abs_cutOff_le {q : ℚ} {n : ℤ} (h : |q| ≤ n) : |cutOff q| ≤ n := by
  rw [abs_le, ← Int.cast_neg] at h
  have hlow := cutOff_mono h.1
  have hhigh := cutOff_mono h.2
  rw [cutOff_intCast] at hlow hhigh
  exact abs_le.mpr ⟨hlow, hhigh⟩

/-! ## Samples cut off at full scale -/

/-- A sample cut off at full scale. -/
def clamped (x : Float32) : ℚ :=
  if x.isFinite then max (-1) (min 1 (exact x)) else if 0 < x then 1 else -1

section Samples

variable {x y : Float32}

theorem abs_clamped_le (x : Float32) : |clamped x| ≤ 1 := by
  unfold clamped
  split_ifs
  · rw [abs_le]
    exact ⟨le_max_left _ _, max_le (by norm_num) (min_le_left _ _)⟩
  · norm_num
  · norm_num

theorem clamped_of_infinity_positive (hx : unpacked x = .infinity .positive) :
    clamped x = 1 := by
  rw [eq_ofUnpacked hx]
  decide +kernel

theorem clamped_of_infinity_negative (hx : unpacked x = .infinity .negative) :
    clamped x = -1 := by
  rw [eq_ofUnpacked hx]
  decide +kernel

theorem clamped_of_isFinite (hx : x.isFinite = true) :
    clamped x = max (-1) (min 1 (exact x)) :=
  if_pos hx

theorem clamped_neg (hx : x.isNaN = false) : clamped (-x) = -clamped x := by
  rcases (isNaN_eq_false_iff x).mp hx with hx | ⟨_ | _, hx⟩
  · rw [clamped_of_isFinite hx, clamped_of_isFinite ((isFinite_neg x).trans hx),
      exact_neg]
    rw [max_def, min_def, max_def, min_def]
    split_ifs <;> linarith
  · have hneg : unpacked (-x) = .infinity .positive := by
      rw [unpacked_neg, hx]; rfl
    rw [clamped_of_infinity_positive hneg, clamped_of_infinity_negative hx,
      neg_neg]
  · have hneg : unpacked (-x) = .infinity .negative := by
      rw [unpacked_neg, hx]; rfl
    rw [clamped_of_infinity_negative hneg, clamped_of_infinity_positive hx]

theorem clamped_mono (h : x ≤ y) : clamped x ≤ clamped y := by
  rcases le_cases h with ⟨hx, -⟩ | ⟨-, hy⟩ | ⟨hx, hy, hexact⟩
  · rw [clamped_of_infinity_negative hx]
    exact neg_le_of_abs_le (abs_clamped_le y)
  · rw [clamped_of_infinity_positive hy]
    exact le_of_abs_le (abs_clamped_le x)
  · rw [clamped_of_isFinite hx, clamped_of_isFinite hy]
    exact max_le_max le_rfl (min_le_min le_rfl hexact)

/-- What is written of a sample is the clamped sample, exactly. -/
theorem exact_clamp (hx : x.isNaN = false) :
    (smaller (larger x (-1)) 1).isFinite = true ∧
      exact (smaller (larger x (-1)) 1) = clamped x := by
  rcases (isNaN_eq_false_iff x).mp hx with hx | ⟨_ | _, hx⟩
  · obtain ⟨hlower, hlow⟩ :=
      larger_finite hx (show (-1 : Float32).isFinite = true from rfl)
    obtain ⟨hfinite, hexact⟩ :=
      smaller_finite hlower (show (1 : Float32).isFinite = true from rfl)
    refine ⟨hfinite, ?_⟩
    rw [hexact, hlow, clamped_of_isFinite hx, exact_neg, exact_one,
      max_min_distrib_left, max_eq_right (by norm_num : (-1 : ℚ) ≤ 1), max_comm,
      min_comm]
  · rw [eq_ofUnpacked hx]
    decide +kernel
  · rw [eq_ofUnpacked hx]
    decide +kernel

theorem amplitude_finite :
    amplitude.isFinite = true ∧ exact amplitude = 32767 := by
  decide +kernel

theorem onGrid_amplitude : OnGrid 32767 := by
  exact_mod_cast onGrid_natCast (n := 32767) (by norm_num)

theorem abs_nearest_amplitude_le {c : ℚ} (hc : |c| ≤ 1) :
    |nearest (c * 32767)| ≤ 32767 := by
  have hmost : |c * 32767| ≤ 32767 := by
    rw [abs_mul, abs_of_pos (by norm_num : (0 : ℚ) < 32767)]
    linarith
  simpa only [nearest_of_onGrid onGrid_amplitude]
    using abs_nearest_le_nearest hmost

theorem abs_cutOff_nearest_le {c : ℚ} (hc : |c| ≤ 1) :
    |cutOff (nearest (c * 32767))| ≤ 32767 :=
  abs_cutOff_le (by exact_mod_cast abs_nearest_amplitude_le hc)

theorem quantize_eq (hx : x.isNaN = false) :
    quantize x = cutOff (nearest (clamped x * 32767)) := by
  obtain ⟨hfinite, hexact⟩ := exact_clamp hx
  have hbound := abs_nearest_amplitude_le (abs_clamped_le x)
  have hproduct := mul_roundsTo hfinite amplitude_finite.1
  rw [hexact, amplitude_finite.2, RoundsTo, if_pos (by linarith)] at hproduct
  have hwhole := wholePart_eq hproduct.1 (by rw [hproduct.2]; linarith)
  rw [hproduct.2] at hwhole
  change _ = cutOff _ at hwhole
  have hrange := abs_le.mp (abs_cutOff_nearest_le (abs_clamped_le x))
  rw [quantize, wholePart16, wholePartWithin, hwhole]
  omega

/-- Rounding to the grid does not cross an integer, so at most the fraction is
lost, and the difference of the scales on top of it. -/
theorem abs_cutOff_sub_lt_of_nonneg {c : ℚ} (hc : 0 ≤ c) (hmost : c ≤ 1) :
    |(cutOff (nearest (c * 32767)) : ℚ) - c * 32768| < 2 := by
  have hpos : 0 ≤ c * 32767 := by positivity
  have hfloor : (⌊c * 32767⌋ : ℚ) ≤ c * 32767 := Int.floor_le _
  have hceil : c * 32767 ≤ (⌈c * 32767⌉ : ℚ) := Int.le_ceil _
  have hfloor_lt := Int.lt_floor_add_one (c * 32767)
  have hceil_lt := Int.ceil_lt_add_one (c * 32767)
  have hleast : 0 ≤ ⌊c * 32767⌋ := Int.floor_nonneg.mpr hpos
  have hlargest : ⌈c * 32767⌉ ≤ 32767 :=
    Int.ceil_le.mpr (by push_cast; linarith)
  have horder := Int.floor_le_ceil (c * 32767)
  have hlow : OnGrid ⌊c * 32767⌋ :=
    onGrid_intCast (abs_lt.mpr ⟨by omega, by omega⟩)
  have hhigh : OnGrid ⌈c * 32767⌉ :=
    onGrid_intCast (abs_lt.mpr ⟨by omega, by omega⟩)
  have hbelow := cutOff_mono (hlow.le_nearest hfloor)
  have habove := cutOff_mono (hhigh.nearest_le hceil)
  rw [cutOff_intCast] at hbelow habove
  have hbelow' : (⌊c * 32767⌋ : ℚ) ≤ cutOff (nearest (c * 32767)) := by
    exact_mod_cast hbelow
  have habove' : (cutOff (nearest (c * 32767)) : ℚ) ≤ ⌈c * 32767⌉ := by
    exact_mod_cast habove
  rw [abs_lt]
  constructor <;> linarith

theorem abs_cutOff_sub_lt {c : ℚ} (hc : |c| ≤ 1) :
    |(cutOff (nearest (c * 32767)) : ℚ) - c * 32768| < 2 := by
  rw [abs_le] at hc
  rcases le_total 0 c with hpos | hneg
  · exact abs_cutOff_sub_lt_of_nonneg hpos hc.2
  · have hbound :=
      abs_cutOff_sub_lt_of_nonneg (neg_nonneg.mpr hneg) (by linarith)
    rw [neg_mul, neg_mul, nearest_neg, cutOff_neg, Int.cast_neg, ← neg_sub',
      abs_neg] at hbound
    exact hbound

/-! ## Samples read back -/

/-- What is read of a sample that has been written. -/
def readBack (x : Float32) : Float32 :=
  ofInt (quantize x) * Format.integerScale 16

theorem readBack_finite (hx : x.isNaN = false) :
    (readBack x).isFinite = true ∧
      exact (readBack x) = cutOff (nearest (clamped x * 32767)) / 32768 := by
  have hrange := abs_cutOff_nearest_le (abs_clamped_le x)
  rw [readBack, quantize_eq hx]
  generalize cutOff (nearest (clamped x * 32767)) = quantum at *
  have hbits : HasBits 16 quantum := by
    rw [abs_le] at hrange
    simp only [HasBits]
    omega
  have hgrid : OnGrid quantum := onGrid_intCast (hrange.trans_lt (by norm_num))
  obtain ⟨hwithin, hexact⟩ := scaled_finite (by norm_num) hbits
  rw [nearest_of_onGrid hgrid] at hexact
  norm_num at hexact
  exact ⟨hwithin.isFinite, hexact⟩

theorem abs_readBack_sub_lt (hx : x.isNaN = false) :
    |exact (readBack x) - clamped x| < 2 ^ (-14 : ℤ) := by
  have hnear := abs_cutOff_sub_lt (abs_clamped_le x)
  have hquotient : exact (readBack x) - clamped x =
      (cutOff (nearest (clamped x * 32767)) - clamped x * 32768) / 32768 := by
    rw [(readBack_finite hx).2]
    ring
  rw [hquotient, abs_div, abs_of_pos (by norm_num : (0 : ℚ) < 32768),
    div_lt_iff₀ (by norm_num)]
  exact hnear.trans_eq (by norm_num)

theorem readBack_neg (hx : x.isNaN = false) :
    exact (readBack (-x)) = -exact (readBack x) := by
  have hneg : (-x).isNaN = false := (isNaN_neg x).trans hx
  rw [(readBack_finite hneg).2, (readBack_finite hx).2, clamped_neg hx, neg_mul,
    nearest_neg, cutOff_neg, Int.cast_neg, neg_div]

theorem readBack_mono (h : x ≤ y) : readBack x ≤ readBack y := by
  obtain ⟨hx, hy⟩ := isNaN_of_le h
  obtain ⟨hxfinite, hxexact⟩ := readBack_finite hx
  obtain ⟨hyfinite, hyexact⟩ := readBack_finite hy
  have hquanta : cutOff (nearest (clamped x * 32767)) ≤
      cutOff (nearest (clamped y * 32767)) :=
    cutOff_mono
      (nearest_mono (mul_le_mul_of_nonneg_right (clamped_mono h) (by norm_num)))
  rw [le_iff hxfinite hyfinite, hxexact, hyexact]
  exact div_le_div_of_nonneg_right (by exact_mod_cast hquanta) (by norm_num)

end Samples

/-! ## Recordings read back -/

section Recordings

variable {recording : Recording} {file : List UInt8}

theorem readSamples_flatMap {width : ℕ} {encode : Float32 → List UInt8}
    (decode : List UInt8 → Float32) (hwidth : ∀ x, (encode x).length = width)
    (xs : List Float32) (before : Array Float32) :
    readSamples width decode xs.length before (xs.flatMap encode) =
      .ok (before ++ (xs.map fun x => decode (encode x)).toArray) := by
  induction xs generalizing before with
  | nil => exact congrArg Except.ok Array.append_empty.symm
  | cons x xs ih =>
    rw [List.flatMap_cons, List.length_cons, readSamples, takes_take (hwidth x)]
    dsimp only
    rw [ih, List.map_cons, List.toArray_cons, ← Array.append_assoc,
      Array.append_singleton]

theorem integerOf_quantize (x : Float32) :
    integerOf (twosComplement 2 (quantize x)) = quantize x := by
  have hrange : -32768 ≤ quantize x ∧ quantize x ≤ 32767 := by
    rw [quantize, wholePart16, wholePartWithin]
    omega
  exact integerOf_twosComplement (by omega) (by omega)

theorem samples_stored (recording : Recording) :
    Data.samples ⟨monoFormat recording.rate.toNat, 2 * recording.samples.size,
        stored recording⟩ =
      .ok (recording.samples.map readBack) := by
  have hdecoder : (monoFormat recording.rate.toNat).decoder =
      .ok fun bs => ofInt (integerOf bs) * Format.integerScale 16 := rfl
  have hcount :
      2 * recording.samples.size / (monoFormat recording.rate.toNat).width =
        recording.samples.toList.length :=
    Nat.mul_div_cancel_left _ (by decide)
  have hread :=
    readSamples_flatMap
      (fun bs => ofInt (integerOf bs) * Format.integerScale 16)
      (fun x => length_twosComplement 2 (quantize x))
      recording.samples.toList #[]
  have hsamples :
      (#[] ++ (recording.samples.toList.map readBack).toArray : Array Float32) =
        recording.samples.map readBack := by
    rw [Array.empty_append, ← Array.toList_map, Array.toArray_toList]
  simp only [integerOf_quantize] at hread
  change _ = Except.ok (#[] ++ (recording.samples.toList.map readBack).toArray)
    at hread
  unfold Data.samples
  dsimp only
  rw [hsamples] at hread
  rw [hcount, hdecoder]
  cases hlength : recording.samples.toList.length with
  | zero =>
    rw [hlength] at hread
    exact hread
  | succ count =>
    rw [hlength] at hread
    exact hread

theorem firstChannel_one (samples : Array Float32) :
    firstChannel 1 samples = samples := by
  apply Array.ext
  · simp [firstChannel]
  · intro i hi hi'
    simp [firstChannel]

theorem read_of_holds (h : Holds file recording) :
    read file =
      .ok { recording with samples := recording.samples.map readBack } := by
  have hdepth : ¬ ((monoFormat recording.rate.toNat).encoding = .integer ∧
      32 < (monoFormat recording.rate.toNat).bits) := by
    simp [monoFormat]
  have hrate :
      (monoFormat recording.rate.toNat).rate.toUInt32 = recording.rate :=
    UInt32.ofNat_toNat
  have hchannel : firstChannel (monoFormat recording.rate.toNat).channels
      (recording.samples.map readBack) = recording.samples.map readBack :=
    firstChannel_one _
  rw [read, h]
  dsimp only
  rw [if_neg hdepth, samples_stored]
  change Except.ok _ = _
  rw [hrate, hchannel]

/-- A recording is read back with its rate and as many samples as it has.  That
takes a file that holds the samples in 16 bits, as the one that is written does
unless it is too long for its header.  Whatever a sample is, if it is not a NaN,
what is read differs from it by less than two steps of the format after it has
been cut off at full scale; the sample with the other sign is read with the
other sign, and a larger one as no less. -/
theorem recording_read_back (hrate : recording.rate ≠ 0)
    (hmost : recording.rate.toNat ≤ 2 ^ 30) :
    (∃ file, write recording = .ok file ∧
      (2 * recording.samples.size < 2 ^ 32 → Holds file recording) ∧
      (Holds file recording →
        read file =
          .ok { recording with samples := recording.samples.map readBack })) ∧
    ∀ x, x.isNaN = false →
      (readBack x).isFinite = true ∧
      |exact (readBack x) - clamped x| < 2 ^ (-14 : ℤ) ∧
      exact (readBack (-x)) = -exact (readBack x) ∧ ∀ y, x ≤ y →
      readBack x ≤ readBack y := by
  refine ⟨⟨encode recording, if_neg hrate, ?_, read_of_holds⟩, fun x hx => ?_⟩
  · exact holds_encode (by omega)
  · exact ⟨(readBack_finite hx).1, abs_readBack_sub_lt hx, readBack_neg hx,
      fun _ => readBack_mono⟩

/-- A short recording that is too loud. -/
def overdriven : Recording where
  rate := 44100
  samples := #[0.5, -0.5, 3e38, -0]

theorem overdriven_read_back :
    overdriven.rate ≠ 0 ∧ overdriven.rate.toNat ≤ 2 ^ 30 ∧
    (∃ file, write overdriven = .ok file ∧ Holds file overdriven ∧
      read file =
        .ok { overdriven with samples := overdriven.samples.map readBack }) ∧
    (3e38 : Float32).isNaN = false ∧ (0.5 : Float32) ≤ 3e38 ∧
    |exact (readBack 3e38) - clamped 3e38| < 2 ^ (-14 : ℤ) ∧
    exact (readBack (-3e38)) = -exact (readBack 3e38) ∧
    readBack 0.5 ≤ readBack 3e38 := by
  have hrate : overdriven.rate ≠ 0 := by decide
  have hmost : overdriven.rate.toNat ≤ 2 ^ 30 := by decide
  have hloud : (3e38 : Float32).isNaN = false := by decide +kernel
  have hmoderate : (0.5 : Float32).isNaN = false := by decide +kernel
  have horder : (0.5 : Float32) ≤ 3e38 := by decide +kernel
  obtain ⟨⟨file, hwrite, hholds, hread⟩, hsamples⟩ :=
    recording_read_back hrate hmost
  have hheld := hholds (by decide)
  obtain ⟨-, hnear, hneg, -⟩ := hsamples _ hloud
  exact ⟨hrate, hmost, ⟨file, hwrite, hheld, hread hheld⟩, hloud, horder,
    hnear, hneg, (hsamples _ hmoderate).2.2.2 _ horder⟩

end Recordings

end PitchFollower.Wave
