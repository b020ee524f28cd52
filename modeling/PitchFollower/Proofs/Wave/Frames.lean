import PitchFollower.Proofs.Single.Monotone
import PitchFollower.Proofs.Single.Places
import PitchFollower.Wave.Reader

/-!
# Frames read

The samples of a file are interleaved: a frame holds one of every channel.  Of
each frame exactly the first sample is kept.  Integers, of however many bits,
are brought into the range from -1 to 1, also where they have more bits than a
mantissa and are rounded up to full scale.  Single precision samples are kept as
they are stored, whatever their range.
-/

namespace PitchFollower.Wave

open Single

/-! ## Samples one after the other -/

theorem take_eq_some_iff {count : ℕ} {bytes taken rest : List UInt8} :
    ByteReader.take count bytes = some (taken, rest) ↔
      count ≤ bytes.length ∧ taken = bytes.take count ∧
      rest = bytes.drop count := by
  have hlength : (bytes.take count).length = count ↔ count ≤ bytes.length := by
    rw [List.length_take]
    omega
  unfold ByteReader.take
  simp only [hlength]
  constructor
  · intro h
    split_ifs at h with hcount
    cases h
    exact ⟨hcount, rfl, rfl⟩
  · rintro ⟨hcount, rfl, rfl⟩
    exact if_pos hcount

/-- A file that is long enough has all of its samples read, each of them from
its own bytes. -/
theorem readSamples_eq_ok_iff {width : ℕ} {decode : List UInt8 → Float32}
    {count : ℕ} {before samples : Array Float32} {bytes : List UInt8} :
    readSamples width decode count before bytes = .ok samples ↔
      count * width ≤ bytes.length ∧
        samples = before ++ ((List.range count).map fun k =>
          decode ((bytes.drop (k * width)).take width)).toArray := by
  induction count generalizing before bytes with
  | zero => simp [readSamples, eq_comm]
  | succ count ih =>
    rw [readSamples]
    cases htaken : ByteReader.take width bytes with
    | none =>
      have hshort : ¬ width ≤ bytes.length := by
        intro hle
        rw [take_eq_some_iff.mpr ⟨hle, rfl, rfl⟩] at htaken
        cases htaken
      simp only [reduceCtorEq, false_iff, not_and]
      intro hle
      rw [Nat.succ_mul] at hle
      omega
    | some front =>
      obtain ⟨hle, htaken, hrest⟩ := take_eq_some_iff.mp htaken
      have hnext (k : ℕ) : (bytes.drop width).drop (k * width) =
          bytes.drop ((k + 1) * width) := by
        rw [List.drop_drop, Nat.succ_mul, Nat.add_comm]
      dsimp only
      rw [ih, htaken, hrest, List.length_drop, List.range_succ_eq_map,
        List.map_cons, List.map_map, Nat.zero_mul, List.drop_zero]
      have hlength : count * width ≤ bytes.length - width ↔
          (count + 1) * width ≤ bytes.length := by
        rw [Nat.succ_mul]
        omega
      rw [hlength, List.toArray_cons, ← Array.append_assoc,
        Array.append_singleton]
      simp only [hnext, Function.comp_def, Nat.succ_eq_add_one]

theorem size_firstChannel (channels : ℕ) (samples : Array Float32) :
    (firstChannel channels samples).size = samples.size / channels := by
  simp [firstChannel]

/-- Of each frame the first sample is kept. -/
theorem getElem?_firstChannel {channels i : ℕ} {samples : Array Float32}
    (hi : i < samples.size / channels) :
    i * channels < samples.size ∧
      (firstChannel channels samples)[i]? = samples[i * channels]? := by
  have hpos : 0 < channels := Nat.pos_of_ne_zero fun hnone => by
    simp [hnone] at hi
  have hlt : i * channels < samples.size :=
    (Nat.mul_lt_mul_of_pos_right hi hpos).trans_le (Nat.div_mul_le_self _ _)
  exact ⟨hlt, by simp [firstChannel, hi, hlt]⟩

/-! ## Integers -/

theorem naturalOf_lt (bytes : List UInt8) :
    naturalOf bytes < 256 ^ bytes.length := by
  induction bytes with
  | nil => simp [naturalOf]
  | cons b bytes ih =>
    have hb := b.toNat_lt
    rw [naturalOf, List.length_cons, pow_succ']
    omega

/-- The integers of so many bits. -/
def HasBits (bits : ℕ) (z : ℤ) : Prop :=
  -2 ^ (bits - 1) ≤ z ∧ z < 2 ^ (bits - 1)

theorem hasBits_integerOf {bytes : List UInt8} (hne : bytes ≠ []) :
    HasBits (8 * bytes.length) (integerOf bytes) := by
  have hlength : 0 < bytes.length := List.length_pos_iff.mpr hne
  have hhalf : Nat.pow 256 bytes.length = 2 * 2 ^ (8 * bytes.length - 1) := by
    rw [← pow_succ', Nat.sub_add_cancel (by omega), pow_mul]
    rfl
  have hcast : ((2 ^ (8 * bytes.length - 1) : ℕ) : ℤ) =
      2 ^ (8 * bytes.length - 1) := by
    push_cast
    rfl
  have hpos : 0 < 2 ^ (8 * bytes.length - 1) := by positivity
  rw [HasBits, integerOf, hhalf, ← hcast]
  generalize 2 ^ (8 * bytes.length - 1) = half at *
  have hlow := Int.le_bmod (x := naturalOf bytes) (m := 2 * half) (by omega)
  have hhigh := Int.bmod_lt (x := naturalOf bytes) (m := 2 * half) (by omega)
  omega

/-- The integer that a sample stands for.  It takes up the lowest bytes, and
eight bits are stored without a sign. -/
def Format.integer (f : Format) (bytes : List UInt8) : ℤ :=
  if f.bits = 8 then
    naturalOf bytes - 128
  else integerOf (bytes.take (f.bits / 8))

theorem integerScale_eq {bits : ℕ} (hbits : bits ≤ 32) :
    (Format.integerScale bits).isFinite = true ∧
      exact (Format.integerScale bits) = 2 ^ (-(bits - 1 : ℕ) : ℤ) := by
  have hpower : OnGrid ((Nat.pow 2 (bits - 1) : ℕ) : ℚ) := by
    have hgrid := onGrid_zpow (e := (bits - 1 : ℕ)) (by omega)
    rw [zpow_natCast] at hgrid
    exact_mod_cast hgrid
  have hlt : Nat.pow 2 (bits - 1) < 2 ^ 64 :=
    Nat.pow_lt_pow_right (by norm_num) (by omega)
  obtain ⟨hfinite, hexact⟩ := ofNat_finite hlt
  have hcast : ((Nat.pow 2 (bits - 1) : ℕ) : ℚ) = 2 ^ (bits - 1) :=
    Nat.cast_pow 2 (bits - 1)
  rw [nearest_of_onGrid hpower, hcast] at hexact
  have hpos : (0 : ℚ) < 2 ^ (bits - 1) := by positivity
  have hquotient :=
    div_roundsTo (show (1 : Float32).isFinite = true from rfl) hfinite
    (hexact ▸ hpos.ne')
  have hinverse : (1 : ℚ) / 2 ^ (bits - 1) = 2 ^ (-(bits - 1 : ℕ) : ℤ) := by
    rw [zpow_neg, zpow_natCast, one_div]
  rw [hexact, exact_one, hinverse] at hquotient
  have hone : |(2 : ℚ) ^ (-(bits - 1 : ℕ) : ℤ)| ≤ 1 := by
    rw [abs_of_pos (two_zpow_pos _)]
    exact zpow_le_one_of_nonpos₀ (by norm_num) (by omega)
  obtain ⟨hfinite', hexact'⟩ :=
    hquotient.finite_of_abs_le onGrid_one (by norm_num) hone
  exact ⟨hfinite', hexact'.trans (nearest_of_onGrid (onGrid_zpow (by omega)))⟩

/-- A rounded integer keeps its places when it is divided by a power of two. -/
theorem nearest_integer_mul_zpow {z : ℤ} {k : ℕ} (hk : k ≤ 31) :
    nearest (nearest z * 2 ^ (-k : ℤ)) = nearest z * 2 ^ (-k : ℤ) := by
  rcases eq_or_ne z 0 with rfl | hne
  · rw [Int.cast_zero, nearest_zero, zero_mul, nearest_zero]
  · have hone : 1 ≤ |nearest z| := by
      rcases hne.lt_or_gt with hneg | hpos
      · have hle : nearest z ≤ -1 := by
          have hcast : (z : ℚ) ≤ -1 := by
            exact_mod_cast Int.le_sub_one_of_lt hneg
          simpa only [nearest_neg, nearest_of_onGrid onGrid_one]
            using nearest_mono hcast
        exact (le_neg_of_le_neg hle).trans (neg_le_abs _)
      · exact (onGrid_one.le_nearest (by exact_mod_cast hpos)).trans
          (le_abs_self _)
    have hleast : (2 : ℚ) ^ (-126 : ℤ) ≤ 2 ^ (-k : ℤ) :=
      zpow_le_zpow_right₀ (by norm_num) (by omega)
    have hmoved := nearest_mul_zpow (q := nearest z) (k := -k)
      (le_trans (by norm_num) hone)
      (hleast.trans (le_mul_of_one_le_left (two_zpow_pos _).le hone))
    rwa [nearest_of_onGrid (onGrid_nearest z)] at hmoved

/-- An integer sample lies within full scale. -/
theorem scaled_finite {bits : ℕ} {z : ℤ} (hbits : bits ≤ 32)
    (hz : HasBits bits z) :
    Within 1 (ofInt z * Format.integerScale bits) ∧
      exact (ofInt z * Format.integerScale bits) =
        nearest z / 2 ^ (bits - 1) := by
  obtain ⟨hscale, hscaleexact⟩ := integerScale_eq hbits
  have habs : |z| ≤ 2 ^ (bits - 1) := abs_le.mpr ⟨hz.1, hz.2.le⟩
  have hword : z.natAbs < 2 ^ 64 := by
    have hpow : (2 : ℤ) ^ (bits - 1) ≤ 2 ^ 31 :=
      pow_le_pow_right₀ (by norm_num) (by omega)
    rw [Int.abs_eq_natAbs] at habs
    omega
  obtain ⟨hfinite, hexact⟩ := ofInt_nearest hword
  have hproduct := mul_roundsTo hfinite hscale
  rw [hexact, hscaleexact] at hproduct
  have hgrid : OnGrid (2 ^ (bits - 1 : ℕ)) := by
    exact_mod_cast onGrid_zpow (e := (bits - 1 : ℕ)) (by omega)
  have hmost : |nearest z * 2 ^ (-(bits - 1 : ℕ) : ℤ)| ≤ 1 := by
    have hle : |nearest z| ≤ 2 ^ (bits - 1 : ℕ) := by
      simpa only [nearest_of_onGrid hgrid] using
        abs_nearest_le_nearest (q := z) (r := 2 ^ (bits - 1 : ℕ))
          (by exact_mod_cast habs)
    rw [abs_mul, abs_of_pos (two_zpow_pos _), zpow_neg, zpow_natCast,
      ← div_eq_mul_inv]
    exact (div_le_one (by positivity)).mpr hle
  have hwithin := hproduct.within onGrid_one (by norm_num) hmost
  refine ⟨hwithin, (hproduct.exact_eq hwithin.isFinite).trans ?_⟩
  rw [nearest_integer_mul_zpow (by omega), zpow_neg, zpow_natCast,
    ← div_eq_mul_inv]

section Decoders

variable {f : Format} {decode : List UInt8 → Float32} {bytes : List UInt8}

theorem Format.hasBits_integer {width : ℕ} (hwidth : 2 ≤ width)
    (hle : width ≤ bytes.length) (hbits : f.bits = 8 * width) :
    f.integer bytes = integerOf (bytes.take width) ∧
      HasBits f.bits (f.integer bytes) := by
  have hsigned : f.bits ≠ 8 := by omega
  have hinteger : f.integer bytes = integerOf (bytes.take width) := by
    rw [Format.integer, if_neg hsigned, hbits,
      Nat.mul_div_cancel_left _ (by omega)]
  have hlength : (bytes.take width).length = width := List.length_take_of_le hle
  have hne : bytes.take width ≠ [] := List.ne_nil_of_length_pos (by omega)
  have hrange := hasBits_integerOf hne
  rw [hlength, ← hbits, ← hinteger] at hrange
  exact ⟨hinteger, hrange⟩

/-- Integers are scaled by their bits, of which there are at most 32.  Those
without a sign come first, then those that fill their bytes, and then those that
leave one unused. -/
theorem Format.decoder_integer (h : f.decoder = .ok decode)
    (hinteger : f.encoding = .integer) (hlength : bytes.length = f.width) :
    f.bits ≤ 32 ∧ HasBits f.bits (f.integer bytes) ∧
      decode bytes = ofInt (f.integer bytes) * Format.integerScale f.bits := by
  unfold Format.decoder at h
  dsimp only at h
  split at h
  case h_1 _ hwidth hbits =>
    cases h
    have hlt := naturalOf_lt bytes
    rw [hlength, hwidth] at hlt
    simp only [Format.integer, hbits, HasBits, if_true]
    norm_num
    omega
  case h_2 _ hwidth hbits | h_3 _ hwidth hbits | h_4 _ hwidth hbits =>
    cases h
    obtain ⟨heq, hrange⟩ :=
      hasBits_integer (by omega) (hwidth ▸ hlength.ge) hbits
    exact ⟨by omega, hrange, by rw [heq, List.take_of_length_le (by omega)]⟩
  case h_5 _ hwidth hbits =>
    cases h
    have hused : 3 ≤ bytes.length := by omega
    obtain ⟨heq, hrange⟩ := hasBits_integer (by omega) hused hbits
    exact ⟨by omega, hrange, by rw [heq]⟩
  case h_6 hsingle _ _ => cases hsingle.symm.trans hinteger
  case h_7 => cases h

theorem Format.decoder_single (h : f.decoder = .ok decode)
    (hsingle : f.encoding = .single) :
    decode bytes = .ofBits (naturalOf bytes).toUInt32 := by
  unfold Format.decoder at h
  dsimp only at h
  split at h
  case h_6 => cases h; rfl
  case h_7 => cases h
  all_goals simp_all

end Decoders

/-! ## Files -/

/-- The frames of the data. -/
def Data.frames (d : Data) : ℕ :=
  d.length / d.format.width / d.format.channels

/-- The bytes of one of the interleaved samples. -/
def Data.sampleBytes (d : Data) (k : ℕ) : List UInt8 :=
  (d.bytes.drop (k * d.format.width)).take d.format.width

/-- The data consist of whole frames. -/
theorem data?_whole {file : List UInt8} {d : Data} (h : data? file = some d) :
    d.frames * d.format.channels * d.format.width = d.length := by
  simp only [data?, Option.bind_eq_bind, Option.bind_eq_some_iff] at h
  obtain ⟨_, _, _, _, _, _, _, _, _, _, data, _, _, hsamples, _, hframes,
      hdata⟩ := h
  cases hdata
  have hsamples : d.length % d.format.width = 0 := by
    by_contra hne
    simp [guard, hne] at hsamples
  have hframes : d.length / d.format.width % d.format.channels = 0 := by
    by_contra hne
    simp [guard, hne] at hframes
  rw [Data.frames, Nat.div_mul_cancel (Nat.dvd_of_mod_eq_zero hframes),
    Nat.div_mul_cancel (Nat.dvd_of_mod_eq_zero hsamples)]

theorem exists_data {file : List UInt8} {recording : Recording}
    (h : read file = .ok recording) :
    ∃ d samples, data? file = some d ∧ d.samples = .ok samples ∧
      recording = ⟨d.format.rate.toUInt32,
        firstChannel d.format.channels samples⟩ := by
  unfold read at h
  cases hdata : data? file with
  | none => rw [hdata] at h; cases h
  | some d =>
    rw [hdata] at h
    dsimp only at h
    split_ifs at h with hdeep
    · cases h
    · cases hsamples : d.samples with
      | error e => rw [hsamples] at h; cases h
      | ok samples =>
        rw [hsamples] at h
        cases h
        exact ⟨d, samples, rfl, hsamples, rfl⟩

theorem Data.samples_of_ok {d : Data} {samples : Array Float32}
    (h : d.samples = .ok samples) :
    samples.size = d.length / d.format.width ∧
      ∀ k < samples.size, ∃ decode, d.format.decoder = .ok decode ∧
        (d.sampleBytes k).length = d.format.width ∧
        samples[k]? = some (decode (d.sampleBytes k)) := by
  unfold Data.samples at h
  split at h
  case h_1 hnone =>
    cases h
    exact ⟨hnone.symm, fun k hk => absurd hk (Nat.not_lt_zero k)⟩
  case h_2 =>
    cases hdecode : d.format.decoder with
    | error e => rw [hdecode] at h; cases h
    | ok decode =>
      rw [hdecode] at h
      obtain ⟨henough, rfl⟩ := readSamples_eq_ok_iff.mp h
      refine ⟨by simp, fun k hk => ?_⟩
      have hk : k < d.length / d.format.width := by simpa using hk
      have hend : (k + 1) * d.format.width ≤ d.bytes.length :=
        (Nat.mul_le_mul_right _ hk).trans henough
      rw [Nat.succ_mul] at hend
      refine ⟨decode, rfl, ?_, by simp [hk, Data.sampleBytes]⟩
      rw [Data.sampleBytes, List.length_take, List.length_drop]
      omega

section Frames

variable {file : List UInt8} {recording : Recording}

/-- A file is read as one sample of each of its frames, the first one. -/
theorem first_channel_read (h : read file = .ok recording) :
    ∃ d, data? file = some d ∧ recording.rate = d.format.rate.toUInt32 ∧
      d.frames * d.format.channels * d.format.width = d.length ∧
      recording.samples.size = d.frames ∧
      ∀ i < d.frames, ∃ x, recording.samples[i]? = some x ∧
        (d.sampleBytes (i * d.format.channels)).length = d.format.width ∧
        (d.format.encoding = .integer →
          HasBits d.format.bits
            (d.format.integer (d.sampleBytes (i * d.format.channels))) ∧
          exact x =
            nearest (d.format.integer (d.sampleBytes (i * d.format.channels))) /
              2 ^ (d.format.bits - 1) ∧
          Within 1 x) ∧
        (d.format.encoding = .single →
          x = .ofBits
            (naturalOf (d.sampleBytes (i * d.format.channels))).toUInt32) := by
  obtain ⟨d, samples, hdata, hsamples, rfl⟩ := exists_data h
  obtain ⟨hsize, hentries⟩ := d.samples_of_ok hsamples
  have hframes : d.frames = samples.size / d.format.channels := by
    rw [hsize, Data.frames]
  refine ⟨d, hdata, rfl, data?_whole hdata, ?_, fun i hi => ?_⟩
  · rw [size_firstChannel, hframes]
  · obtain ⟨hlt, hentry⟩ := getElem?_firstChannel (hframes ▸ hi)
    obtain ⟨decode, hdecode, hlength, hsample⟩ := hentries _ hlt
    refine ⟨_, hentry.trans hsample, hlength, fun hinteger => ?_,
      fun hsingle => ?_⟩
    · obtain ⟨hbits, hrange, hscaled⟩ :=
        Format.decoder_integer hdecode hinteger hlength
      obtain ⟨hwithin, hexact⟩ := scaled_finite hbits hrange
      rw [hscaled]
      exact ⟨hrange, hexact, hwithin⟩
    · exact Format.decoder_single hdecode hsingle

end Frames

/-- A file with the shortest header and 8000 frames a second. -/
def plainFile (tag channels bits : ℕ) (data : List UInt8) : List UInt8 :=
  let frame := channels * (bits / 8)
  ascii "RIFF" ++ littleEndian 4 (36 + data.length) ++ ascii "WAVE" ++
    ascii "fmt " ++ littleEndian 4 16 ++ littleEndian 2 tag ++
    littleEndian 2 channels ++
    littleEndian 4 8000 ++ littleEndian 4 (8000 * frame) ++
    littleEndian 2 frame ++
    littleEndian 2 bits ++ ascii "data" ++ littleEndian 4 data.length ++ data

/-- Two channels of 24 bits, of which the first one swings from one end to the
other. -/
def stereo : List UInt8 :=
  plainFile Format.integerTag 2 24
    [0xff, 0xff, 0x7f, 0x01, 0x00, 0x00, 0x00, 0x00, 0x80, 0x02, 0x00, 0x00]

/-- Two frames of two channels are read as two samples. -/
theorem stereo_read :
    ∃ recording, read stereo = .ok recording ∧ recording.samples.size = 2 ∧
    ∃ d, data? stereo = some d ∧ d.frames = 2 ∧
      ∀ i < d.frames, ∃ x, recording.samples[i]? = some x ∧ Within 1 x := by
  have hok : (read stereo).isOk = true := by decide +kernel
  have hformat : (data? stereo).map (fun d => (d.frames, d.format.encoding)) =
      some (2, .integer) := by decide +kernel
  cases hread : read stereo with
  | error e => rw [hread] at hok; cases hok
  | ok recording =>
    obtain ⟨d, hdata, _, _, hsize, hframes⟩ := first_channel_read hread
    rw [hdata, Option.map_some, Option.some.injEq, Prod.mk.injEq] at hformat
    refine ⟨recording, rfl, hsize.trans hformat.1, d, hdata, hformat.1,
      fun i hi => ?_⟩
    obtain ⟨x, hx, _, hinteger, _⟩ := hframes i hi
    exact ⟨x, hx, (hinteger hformat.2).2.2⟩

/-- A single precision sample of two is stored as it is. -/
def overFullScale : List UInt8 :=
  plainFile Format.singleTag 1 32 (littleEndian 4 (2 : Float32).toBits.toNat)

/-- A single precision sample beyond full scale is not cut off. -/
theorem over_full_scale_read :
    ∃ recording x, read overFullScale = .ok recording ∧
    recording.samples[0]? = some x ∧ ¬ Within 1 x := by
  have hread : (read overFullScale).toOption.bind (fun recording =>
    recording.samples[0]?) =
      some 2 := by decide +kernel
  cases hok : read overFullScale with
  | error e => rw [hok] at hread; cases hread
  | ok recording =>
    rw [hok] at hread
    refine ⟨recording, 2, rfl, hread, fun hwithin => ?_⟩
    have htwo : exact 2 = 2 := by decide +kernel
    have habs := hwithin.abs_le
    rw [htwo] at habs
    norm_num at habs

end PitchFollower.Wave
