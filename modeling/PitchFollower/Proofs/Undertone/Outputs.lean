import PitchFollower.Proofs.Period.Energies
import PitchFollower.Proofs.Period.Hearing
import PitchFollower.Proofs.Single.Cosine
import PitchFollower.Undertone.Voice

/-!
# Outputs of a voice

Settings are accepted if every one of them is finite, which does not keep their
products finite.  This module bounds the output of a voice by the product of the
gain, the level and the weights, as the voice itself would compute it for the
largest level.  If that product is finite, so are all outputs without smoothing.
With smoothing they stay below a power of two that is no smaller, because the
weighted mean of two numbers below it is rounded to a number below it again.
-/

namespace PitchFollower

open Single

/-! ## Wavetables -/

namespace Wavetable

theorem within_sineAt {size index : ℕ} (hsize : size < 2 ^ 64)
    (hindex : index < size) : Within 1 (sineAt size index) := by
  have hturn : Within 7 (2 * Approximate.pi) :=
    ⟨by decide +kernel, by decide +kernel⟩
  have hquarter : Within 2 (Approximate.pi / 2) :=
    ⟨by decide +kernel, by decide +kernel⟩
  obtain ⟨hfinite, hexact⟩ := ofNat_finite hsize
  have hone := one_le_exact_ofNat (Nat.zero_lt_of_lt hindex) hsize
  have hmost : exact (ofNat size) ≤ 2 ^ 64 := by
    rw [hexact]
    exact (onGrid_zpow (e := 64) (by norm_num)).nearest_le
      (by exact_mod_cast hsize.le)
  have hpart : Within (exact (ofNat size)) (ofNat index) := by
    obtain ⟨hpartfinite, hpartexact⟩ := ofNat_finite (hindex.trans hsize)
    refine ⟨hpartfinite, ?_⟩
    rw [abs_of_nonneg (hpartexact ▸ nearest_nonneg (Nat.cast_nonneg index))]
    exact exact_ofNat_mono hsize hindex.le
  have hproduct :
      Within (exact (ofNat size) * 2 ^ 3)
        (2 * Approximate.pi * ofNat index) := by
    apply hturn.mul hpart ((onGrid_exact _).mul_two_pow 3)
    · linarith
    · linarith
  have hangle : Within 8 (2 * Approximate.pi * ofNat index / ofNat size) := by
    apply hproduct.div hfinite (by linarith)
      (onGrid_natCast (n := 8) (by norm_num)) (by norm_num)
    push_cast
    linarith
  exact Approximate.within_cos
    (hangle.sub hquarter (onGrid_natCast (n := 12) (by norm_num)) (by norm_num)
      (by norm_num))

theorem within_lookUp {size : ℕ} {table : Wavetable}
    (h : ofSize size = .ok table) (hsize : size < 2 ^ 64) (phase : Float32) :
    Within 1 (table.lookUp phase) := by
  unfold ofSize at h
  split_ifs at h with hpositive
  cases h
  have hplace : ((sine size hpositive).place phase : ℕ) < size := by
    simpa [sine] using ((sine size hpositive).place phase).isLt
  have hvalue :
      (sine size hpositive).values[(sine size hpositive).place phase] =
        sineAt size ((sine size hpositive).place phase) := by
    simp [sine]
  unfold lookUp
  split_ifs
  · rw [hvalue]
    exact within_sineAt hsize hplace
  · exact within_zero.mono zero_le_one

end Wavetable

namespace Undertone

/-! ## Settings -/

namespace VoiceSettings

theorem isAmount_iff (x : Float32) :
    IsAmount x ↔ x.isFinite = true ∧ 0 ≤ exact x := by
  constructor
  · rintro ⟨hfinite, hnonneg⟩
    rw [le_iff rfl hfinite, exact_zero] at hnonneg
    exact ⟨hfinite, hnonneg⟩
  · rintro ⟨hfinite, hnonneg⟩
    refine ⟨hfinite, ?_⟩
    rwa [le_iff rfl hfinite, exact_zero]

/-- What the check of the settings makes sure of. -/
structure Accepted (s : VoiceSettings) : Prop where
  noiseFloor : IsAmount s.noiseFloor
  smoothing : IsAmount s.smoothing
  gain : s.gain.isFinite = true
  weights : ∀ w ∈ s.weights.toList, w.isFinite = true
  ceiling : ∀ c ∈ s.energyCeiling, IsAmount c

theorem accepted_of_fault? {s : VoiceSettings} (h : s.fault? = none) :
    s.Accepted := by
  unfold fault? at h
  split_ifs at h with hnoise hsmoothing hgain hweights
  refine ⟨hnoise, hsmoothing, Bool.not_eq_false _ ▸ hgain, ?_, ?_⟩
  · simpa using hweights
  · intro c hc
    rw [Option.mem_def.mp hc] at h
    by_contra hnot
    simp only [if_neg hnot] at h
    cases h

/-- The output before smoothing, for the level `limit` and tones at full
swing. -/
def peak (s : VoiceSettings) (limit : Float32) : Float32 :=
  s.gain.abs * limit *
    (s.weights.eighth.abs + s.weights.twelfth.abs + s.weights.sixteenth.abs)

/-- The level never exceeds `limit`, because of the ceiling or because the
signal is not loud enough. -/
def LevelWithin (s : VoiceSettings) (signal : ℕ → Float32) (limit : Float32) :
    Prop :=
  (∃ c, s.energyCeiling = some c ∧ exact c ≤ exact limit) ∨
    ∃ a : ℤ, -149 ≤ a ∧ a ≤ 103 ∧ (∀ n, |exact (silenced signal n)| ≤ 2 ^ a) ∧
      2 ^ (a + 1) ≤ exact limit

/-- Smoothing keeps what it has reached within a power of two that is no smaller
than `peak`. -/
def Holds (s : VoiceSettings) (peak : Float32) : Prop :=
  0 < s.smoothing → ∃ (power : Float32) (l : ℕ), exact power = 2 ^ l ∧
    exact peak ≤ exact power ∧ ((s.smoothing + 1) * power).isFinite = true

end VoiceSettings

namespace Voice

section Step

variable {v : Voice} {m : PeriodMeter} {limit value : Float32}

theorem within_above {energy noiseFloor : Float32} {b : ℚ}
    (henergy : energy.isFinite = true) (hnonneg : 0 ≤ exact energy)
    (hfloor : VoiceSettings.IsAmount noiseFloor) (hb : OnGrid b)
    (hbnonneg : 0 ≤ b) (hle : exact energy - exact noiseFloor ≤ b) :
    Within b (larger (energy - noiseFloor) 0) := by
  obtain ⟨hfinite, hfloornonneg⟩ :=
    (VoiceSettings.isAmount_iff noiseFloor).mp hfloor
  have hsub := sub_roundsTo henergy hfinite
  have hdiff : (energy - noiseFloor).isFinite = true := by
    rcases le_total (exact energy) (exact noiseFloor) with hle | hle
    · refine (hsub.within (onGrid_exact noiseFloor) ?_ ?_).isFinite
      · exact (le_abs_self _).trans_lt (abs_exact_lt noiseFloor)
      · rw [abs_le]
        constructor <;> linarith
    · refine (hsub.within (onGrid_exact energy) ?_ ?_).isFinite
      · exact (le_abs_self _).trans_lt (abs_exact_lt energy)
      · rw [abs_le]
        constructor <;> linarith
  have hrounded : exact (energy - noiseFloor) ≤ b := by
    rw [hsub.exact_eq hdiff]
    exact hb.nearest_le hle
  obtain ⟨habove, habovenonneg, haboveLe⟩ :=
    larger_zero_le hdiff hrounded hbnonneg
  exact ⟨habove, (abs_of_nonneg habovenonneg).trans_le haboveLe⟩

/-- A ceiling does not raise the level. -/
theorem within_level_of_above {b : ℚ} (haccepted : v.settings.Accepted)
    (habove : Within b (larger (v.energy - v.settings.noiseFloor) 0)) :
    Within b v.level := by
  unfold level
  cases hceiling : v.settings.energyCeiling with
  | none => exact habove
  | some c =>
    obtain ⟨hfinite, hnonneg⟩ :=
      (VoiceSettings.isAmount_iff c).mp
        (haccepted.ceiling c (Option.mem_def.mpr hceiling))
    exact within_smaller_of_within habove hfinite hnonneg

theorem within_level (haccepted : v.settings.Accepted) (hnonneg : 0 ≤ v.energy)
    (h : (∃ c, v.settings.energyCeiling = some c ∧ exact c ≤ exact limit) ∨
      Within (exact limit) v.energy) :
    Within (exact limit) v.level := by
  rcases h with ⟨c, hc, hle⟩ | henergy
  · obtain ⟨hfinite, hcnonneg⟩ :=
      (VoiceSettings.isAmount_iff c).mp
        (haccepted.ceiling c (Option.mem_def.mpr hc))
    unfold level
    rw [hc]
    exact (within_smaller (larger_zero_nonneg _) hfinite hcnonneg).mono hle
  · have hfloor := ((VoiceSettings.isAmount_iff _).mp haccepted.noiseFloor).2
    have hle := (le_abs_self _).trans henergy.abs_le
    rw [le_iff rfl henergy.isFinite, exact_zero] at hnonneg
    exact within_level_of_above haccepted (within_above henergy.isFinite hnonneg
      haccepted.noiseFloor (onGrid_exact limit) (hnonneg.trans hle)
        (by linarith))

/-- An energy that does not reach above the noise floor leaves no level. -/
theorem level_of_quiet (haccepted : v.settings.Accepted)
    (henergy : v.energy.isFinite = true) (hnonneg : 0 ≤ exact v.energy)
    (hle : exact v.energy ≤ exact v.settings.noiseFloor) :
    (v.level == 0) = true := by
  have hgrid : OnGrid 0 := exact_zero ▸ onGrid_exact 0
  have hlevel := within_level_of_above haccepted
    (within_above henergy hnonneg haccepted.noiseFloor hgrid le_rfl
      (by linarith))
  exact (beq_zero_iff hlevel.isFinite).mpr (abs_nonpos_iff.mp hlevel.abs_le)

theorem synthesize_of_level (hlevel : (v.level == 0) = true) :
    v.synthesize m = 0 := by
  unfold synthesize
  dsimp only
  rw [if_pos hlevel, ite_self]

theorem within_tone {weight tone : Float32} (hweight : weight.isFinite = true)
    (htone : Within 1 tone) : Within (exact weight.abs) (weight * tone) := by
  rw [exact_abs]
  apply (within_self hweight).mul htone
  · rw [← exact_abs]
    exact onGrid_exact _
  · exact abs_exact_lt weight
  · rw [mul_one]

theorem within_mixture (haccepted : v.settings.Accepted)
    (htable : ∀ phase, Within 1 (v.table.lookUp phase))
    (hsum : (v.settings.weights.eighth.abs + v.settings.weights.twelfth.abs +
      v.settings.weights.sixteenth.abs).isFinite = true) :
    Within
      (exact (v.settings.weights.eighth.abs + v.settings.weights.twelfth.abs +
        v.settings.weights.sixteenth.abs)) (v.mixture m) := by
  have htones : ∀ w ∈ v.settings.weights.toList, ∀ phase,
      Within (exact w.abs) (w * v.table.lookUp phase) :=
    fun w hw phase => within_tone (haccepted.weights w hw) (htable phase)
  simp only [Weights.toList, List.mem_cons, List.not_mem_nil, or_false,
    forall_eq_or_imp, forall_eq] at htones
  obtain ⟨heighth, htwelfth, hsixteenth⟩ := htones
  have hzero : ∀ {w x : Float32}, Within (exact w.abs) x →
      Within (exact w.abs) (0 + x) := by
    intro w x hx
    apply within_zero.add hx (onGrid_exact _)
    · exact (le_abs_self _).trans_lt (abs_exact_lt _)
    · rw [zero_add]
  unfold mixture
  simp only [PhaseCounters.toList, PhaseCounters.moduli, Weights.toList,
    List.zip_cons_cons, List.zip_nil_left, List.foldl_cons, List.foldl_nil]
  apply Within.add_of_isFinite _ (hsixteenth _) hsum
  exact (hzero (heighth _)).add_of_isFinite (htwelfth _)
    (isFinite_of_add hsum).1

theorem within_synthesize (haccepted : v.settings.Accepted)
    (htable : ∀ phase, Within 1 (v.table.lookUp phase))
    (hlevel : Within (exact limit) v.level)
    (hpeak : (v.settings.peak limit).isFinite = true) :
    Within (exact (v.settings.peak limit)) (v.synthesize m) := by
  obtain ⟨hscaled, hsum⟩ := isFinite_of_mul hpeak
  have hgain : Within (exact v.settings.gain.abs) v.settings.gain :=
    ⟨haccepted.gain, (exact_abs _).ge⟩
  have houtput : Within (exact (v.settings.peak limit))
      (v.settings.gain * v.level * v.mixture m) :=
    (hgain.mul_of_isFinite hlevel hscaled).mul_of_isFinite
      (within_mixture haccepted htable hsum) hpeak
  have hsilence : Within (exact (v.settings.peak limit)) 0 :=
    within_zero.mono houtput.nonneg
  unfold synthesize
  dsimp only
  split_ifs
  · exact hsilence
  · exact houtput
  · exact hsilence

/-- A mean of two numbers below a power of two is rounded below it again.  The
largest numerator is a number, because it has only been doubled. -/
theorem within_smooth {power : Float32} {l : ℕ}
    (haccepted : v.settings.Accepted) (hpositive : 0 < v.settings.smoothing)
    (hpower : exact power = 2 ^ l)
    (hroom : ((v.settings.smoothing + 1) * power).isFinite = true)
    (hvalue : Within (exact power) value)
    (hlast : Within (exact power) v.lastOutput) :
    Within (exact power) (v.smooth value) := by
  obtain ⟨hfinite, hnonneg⟩ :=
    (VoiceSettings.isAmount_iff _).mp haccepted.smoothing
  unfold smooth
  dsimp only
  rw [if_pos hpositive]
  generalize v.settings.smoothing = k at *
  obtain ⟨hsuccfinite, hpowerfinite⟩ := isFinite_of_mul hroom
  have hsucc :=
    (add_roundsTo hfinite (show (1 : Float32).isFinite =
      true from rfl)).exact_eq
    hsuccfinite
  rw [exact_one] at hsucc
  have hone : 1 ≤ exact (k + 1) := by
    rw [hsucc]
    exact onGrid_one.le_nearest (by linarith)
  have hle : exact k ≤ exact (k + 1) := by
    rw [hsucc]
    exact (onGrid_exact k).le_nearest (by linarith)
  have hmost : exact (k + 1) * 2 ^ l < 2 ^ 128 := by
    have hexact := (mul_roundsTo hsuccfinite hpowerfinite).exact_eq hroom
    rw [hpower, nearest_of_onGrid ((onGrid_exact _).mul_two_pow l)] at hexact
    rw [← hexact]
    exact (le_abs_self _).trans_lt (abs_exact_lt _)
  have hpow : (0 : ℚ) < 2 ^ l := by positivity
  rw [hpower] at hvalue hlast ⊢
  have hfeedback : Within (exact k * 2 ^ l) (k * v.lastOutput) := by
    apply (within_self hfinite).mul hlast ((onGrid_exact k).mul_two_pow l)
    · exact (mul_le_mul_of_nonneg_right hle hpow.le).trans_lt hmost
    · rw [abs_of_nonneg hnonneg]
  have hsum : Within (exact (k + 1) * 2 ^ l) (value + k * v.lastOutput) := by
    have hnearest : nearest ((exact k + 1) * 2 ^ l) =
        exact (k + 1) * 2 ^ l := by
      rw [hsucc, nearest_mul_two_pow]
      exact (le_abs_self _).trans' (by linarith)
    rw [← hnearest] at hmost ⊢
    apply (add_roundsTo hvalue.isFinite hfeedback.isFinite).within_nearest _
      hmost
    calc |exact value + exact (k * v.lastOutput)|
        ≤ |exact value| + |exact (k * v.lastOutput)| := abs_add_le _ _
      _ ≤ 2 ^ l + exact k * 2 ^ l := add_le_add hvalue.abs_le hfeedback.abs_le
      _ = (exact k + 1) * 2 ^ l := by ring
  apply hsum.div hsuccfinite (zero_lt_one.trans_le hone)
  · simpa using onGrid_one.mul_two_pow l
  · exact (le_mul_of_one_le_left hpow.le hone).trans_lt hmost
  · rw [mul_comm]

end Step

/-! ## Runs -/

/-- The voice with the energy of a cycle, if one was closed. -/
def charged (v : Voice) (cycle : Option Cycle) : Voice :=
  { v with energy := (cycle.map Cycle.energy).getD v.energy }

theorem sound_eq (v : Voice) (m : PeriodMeter) (cycle : Option Cycle) :
    v.sound m cycle =
      ({ v.charged cycle with
          lastOutput :=
            (v.charged cycle).smooth ((v.charged cycle).synthesize m) },
        (v.charged cycle).smooth ((v.charged cycle).synthesize m)) := by
  cases cycle <;> rfl

theorem ofSettings_ok {quantizer : Quantizer} {settings : VoiceSettings}
    {size : ℕ} {v : Voice} (h : ofSettings quantizer settings size = .ok v) :
    settings.fault? = none ∧ Wavetable.ofSize size = .ok v.table ∧
      v.settings = settings ∧
      v.energy = 0 ∧ v.lastOutput = 0 := by
  unfold ofSettings at h
  cases hfault : settings.fault? with
  | some fault =>
    rw [hfault] at h
    cases h
  | none =>
    rw [hfault] at h
    cases htable : Wavetable.ofSize size with
    | error fault =>
      rw [htable] at h
      cases h
    | ok table =>
      rw [htable] at h
      cases h
      exact ⟨rfl, rfl, rfl, rfl, rfl⟩

/-- What is left of a voice after a signal: it has the energy that the meter
knows, and its last output is within bounds. -/
structure Plays (v : Voice) (meter : PeriodMeter) (b : ℚ) (now : Voice) :
    Prop where
  settings : now.settings = v.settings
  table : now.table = v.table
  energy : now.energy = meter.energy
  lastOutput : Within b now.lastOutput

/-- A bound that holds for unsmoothed outputs and is kept by smoothing. -/
structure Keeps (settings : VoiceSettings) (peak : Float32) (b : ℚ) : Prop where
  nonneg : 0 ≤ b
  smooth : ∀ (v : Voice) (value : Float32), v.settings = settings →
    Within (exact peak) value → Within b v.lastOutput →
    Within b (v.smooth value)

theorem exists_keeps {s : VoiceSettings} {peak : Float32}
    (haccepted : s.Accepted) (hpeak : 0 ≤ exact peak) (h : s.Holds peak) :
    ∃ b, Keeps s peak b := by
  by_cases hpositive : 0 < s.smoothing
  · obtain ⟨power, l, hpower, hle, hroom⟩ := h hpositive
    refine ⟨exact power, hpeak.trans hle, ?_⟩
    rintro v value rfl hvalue hlast
    exact within_smooth haccepted hpositive hpower hroom (hvalue.mono hle) hlast
  · refine ⟨exact peak, hpeak, ?_⟩
    rintro v value rfl hvalue -
    unfold smooth
    rwa [if_neg hpositive]

section Run

variable {signal : ℕ → Float32} {v now : Voice} {limit : Float32} {b : ℚ}
variable {n : ℕ}

/-- A voice and the meter that drives it hold the energy of the same cycle. -/
theorem charged_energy (h : v.energy = (PeriodMeter.after signal n).energy) :
    (v.charged (PeriodMeter.reported signal n)).energy =
      (PeriodMeter.after signal (n + 1)).energy := by
  cases hcycle : PeriodMeter.reported signal n with
  | none =>
    rw [(PeriodMeter.held_of_not_reported hcycle).2, ← h]
    rfl
  | some c =>
    rw [(PeriodMeter.held_of_reported hcycle).2]
    rfl

theorem within_value {w : Voice} {m : PeriodMeter}
    (hsettings : w.settings = v.settings) (htable : w.table = v.table)
    (henergy : w.energy = (PeriodMeter.after signal n).energy)
    (haccepted : v.settings.Accepted)
    (hvalues : ∀ phase, Within 1 (v.table.lookUp phase))
    (hlevel : v.settings.LevelWithin signal limit)
    (hpeak : (v.settings.peak limit).isFinite = true) :
    Within (exact (v.settings.peak limit)) (w.synthesize m) := by
  rw [← hsettings] at haccepted hlevel hpeak ⊢
  rw [← htable] at hvalues
  apply within_synthesize haccepted hvalues _ hpeak
  apply within_level haccepted
  · rw [henergy]
    exact PeriodMeter.zero_le_energy signal n
  · rw [henergy]
    refine hlevel.imp_right ?_
    rintro ⟨a, hleast, hmost, hsignal, hle⟩
    exact (PeriodMeter.within_energy hleast hmost
      fun i _ => ⟨PeriodMeter.isFinite_silenced signal i, hsignal i⟩).mono hle

theorem Plays.sound (h : Plays v (PeriodMeter.after signal n) b now)
    (haccepted : v.settings.Accepted)
    (hvalues : ∀ phase, Within 1 (v.table.lookUp phase))
    (hlevel : v.settings.LevelWithin signal limit)
    (hpeak : (v.settings.peak limit).isFinite = true)
    (hkeeps : Keeps v.settings (v.settings.peak limit) b) :
    Plays v (PeriodMeter.after signal (n + 1)) b
        (now.sound (PeriodMeter.after signal (n + 1))
          (PeriodMeter.reported signal n)).1 ∧
      Within b
        (now.sound (PeriodMeter.after signal (n + 1))
          (PeriodMeter.reported signal n)).2 := by
  have henergy := charged_energy h.energy
  have hvalue := within_value (w := now.charged (PeriodMeter.reported signal n))
    (m := PeriodMeter.after signal (n + 1)) h.settings h.table henergy haccepted
      hvalues hlevel hpeak
  have houtput := hkeeps.smooth _ _ h.settings hvalue h.lastOutput
  rw [sound_eq]
  exact ⟨⟨h.settings, h.table, henergy, houtput⟩, houtput⟩

end Run

/-- A voice with accepted settings never puts out anything but finite numbers,
and never keeps anything else, as long as its peak is finite and smoothing has
room for a power of two above it.  The meter that drives the voice is a new one,
whatever the voice does. -/
theorem outputs_finite {quantizer : Quantizer} {settings : VoiceSettings}
    {size : ℕ} {v : Voice} (hv : ofSettings quantizer settings size = .ok v)
    (hsize : size < 2 ^ 64) {signal : ℕ → Float32} {limit : Float32}
    (hlevel : settings.LevelWithin signal limit)
    (hpeak : (settings.peak limit).isFinite = true)
    (hholds : settings.Holds (settings.peak limit)) (n : ℕ) :
    (((Detector.start v).afterHearing signal n).hear (signal n)).2.isFinite =
      true ∧
      ((Detector.start v).afterHearing signal n).player.lastOutput.isFinite =
        true := by
  obtain ⟨hfault, htable, rfl, henergy, hlast⟩ := ofSettings_ok hv
  have haccepted := VoiceSettings.accepted_of_fault? hfault
  have hvalues := Wavetable.within_lookUp htable hsize
  have hfirst :=
    within_value (m := .start) (n := 0) rfl rfl henergy haccepted hvalues
      hlevel hpeak
  obtain ⟨b, hkeeps⟩ := exists_keeps haccepted hfirst.nonneg hholds
  have hmeter : ∀ k, ((Detector.start v).afterHearing signal (k + 1)).meter =
      PeriodMeter.after signal (k + 1) := by
    intro k
    rw [Detector.meter_afterHearing]
    exact PeriodMeter.afterHearing_start signal (k + 1)
  have hcycle : ∀ k, (Detector.start v).closes signal k =
      PeriodMeter.reported signal k := by
    intro k
    rw [Detector.closes_eq]
    exact PeriodMeter.closes_start signal k
  have hplays : ∀ k, Plays v (PeriodMeter.after signal k) b
      ((Detector.start v).afterHearing signal k).player := by
    intro k
    induction k with
    | zero =>
      have hsilent : Within b v.lastOutput := by
        rw [hlast]
        exact within_zero.mono hkeeps.nonneg
      exact ⟨rfl, rfl, henergy, hsilent⟩
    | succ k ih =>
      rw [Detector.player_afterHearing_succ, hmeter, hcycle]
      exact (ih.sound haccepted hvalues hlevel hpeak hkeeps).1
  have hanswer :
      (((Detector.start v).afterHearing signal n).hear (signal n)).2 =
        (((Detector.start v).afterHearing signal n).player.sound
          ((Detector.start v).afterHearing signal (n + 1)).meter
          ((Detector.start v).closes signal n)).2 := rfl
  rw [hanswer, hmeter, hcycle]
  exact ⟨((hplays n).sound haccepted hvalues hlevel hpeak hkeeps).2.isFinite,
    (hplays n).lastOutput.isFinite⟩

theorem ofSettings_eq_ok (quantizer : Quantizer) {settings : VoiceSettings}
    {size : ℕ} (hfault : settings.fault? = none) (hsize : 0 < size) :
    ofSettings quantizer settings size = .ok ⟨quantizer, settings,
      .sine size hsize, 0, 0⟩ := by
  simp only [ofSettings, hfault, Wavetable.ofSize, dif_pos hsize]
  rfl

/-- A sample rate so low that two samples make a period of the whistle. -/
def coarse : Quantizer :=
  ⟨2000, .whistle, by decide +kernel⟩

/-- The standard settings with a long memory. -/
def lingering : VoiceSettings :=
  { VoiceSettings.standard with smoothing := 15 }

theorem lingering_outputs_finite :
    ∃ v, ofSettings coarse lingering 8 = .ok v ∧
      (8 < 2 ^ 64 ∧ lingering.LevelWithin alternating 2 ∧
        (lingering.peak 2).isFinite = true ∧
        lingering.Holds (lingering.peak 2)) ∧
      (((Detector.start v).afterHearing alternating 5).hear
        (alternating 5)).2.isFinite = true ∧
      ((Detector.start v).afterHearing
        alternating 5).player.lastOutput.isFinite = true := by
  have hv := ofSettings_eq_ok coarse
    (show lingering.fault? = none by decide +kernel) (show 0 < 8 by decide)
  have hlevel : lingering.LevelWithin alternating 2 := by
    refine .inr ⟨0, by norm_num, by norm_num, fun n => ?_, by decide +kernel⟩
    unfold silenced alternating
    split_ifs <;> decide +kernel
  have hpeak : (lingering.peak 2).isFinite = true := by decide +kernel
  have hholds : lingering.Holds (lingering.peak 2) :=
    fun _ => ⟨8, 3, by decide +kernel, by decide +kernel, by decide +kernel⟩
  exact ⟨_, hv, ⟨by norm_num, hlevel, hpeak, hholds⟩,
    outputs_finite hv (by norm_num) hlevel hpeak hholds 5⟩

/-- The standard settings with almost the largest gain there is. -/
def deafening : VoiceSettings :=
  { VoiceSettings.standard with gain := 3.4e38 }

theorem deafening_output_infinite :
    ∃ v, ofSettings coarse deafening 8 = .ok v ∧
      (((Detector.start v).hearAll
        #[100, -100, 100, -100]).2.map Float32.isFinite) =
        #[true, false, false, false] ∧
      ((Detector.start v).hearAll
        #[100, -100, 100, -100]).1.player.lastOutput.isFinite = false := by
  refine ⟨_, ofSettings_eq_ok coarse
    (show deafening.fault? = none by decide +kernel) (show 0 < 8 by decide),
    ?_, ?_⟩
  · decide +kernel
  · decide +kernel

end Voice

end Undertone

end PitchFollower
