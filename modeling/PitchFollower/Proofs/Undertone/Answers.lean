import PitchFollower.Proofs.Period.Peaks
import PitchFollower.Proofs.Period.Recurrence
import PitchFollower.Proofs.Undertone.Outputs

/-!
# Answers without smoothing

A voice without smoothing answers with what it synthesizes, and keeps nothing of
a signal but the energy of the last cycle, which the meter keeps as well.  So
each of its answers can be told from the meter alone.  It is silent while the
meter has no energy above the noise floor, and a signal whose samples do not
exceed half of the noise floor never gives it any.  And when the meter comes
back to a state, as it does every 48 cycles of a periodic signal, so does the
answer.
-/

namespace PitchFollower.Undertone.Voice

open Single

/-! ## Runs -/

/-- What a voice has kept of a signal: its quantizer, its settings and the
energy of the last cycle. -/
structure Follows (q : Quantizer) (settings : VoiceSettings)
    (meter : PeriodMeter) (v : Voice) : Prop where
  quantizer : v.quantizer = q
  settings : v.settings = settings
  energy : v.energy = meter.energy

section Run

variable {q : Quantizer} {settings : VoiceSettings} {signal : ℕ → Float32}
variable {v : Voice} {n : ℕ}

theorem Follows.charged
    (h : Follows q settings (PeriodMeter.after signal n) v) :
    Follows q settings (PeriodMeter.after signal (n + 1))
      (v.charged (PeriodMeter.reported signal n)) :=
  ⟨h.quantizer, h.settings, charged_energy h.energy⟩

/-- A voice that hears a signal from its start follows the meter. -/
theorem follows_afterHearing (h : Follows q settings .start v)
    (signal : ℕ → Float32) (n : ℕ) :
    Follows q settings (PeriodMeter.after signal n)
      ((Detector.start v).afterHearing signal n).player := by
  induction n with
  | zero => exact h
  | succ n ih =>
    rw [Detector.player_afterHearing_succ, Detector.meter_start,
      Detector.closes_start]
    change Follows _ _ _ (Voice.sound _ _ _).1
    rw [sound_eq]
    exact ⟨ih.charged.quantizer, ih.charged.settings, ih.charged.energy⟩

theorem table_afterHearing (v : Voice) (signal : ℕ → Float32) (n : ℕ) :
    ((Detector.start v).afterHearing signal n).player.table = v.table := by
  induction n with
  | zero => rfl
  | succ n ih =>
    rw [Detector.player_afterHearing_succ]
    change (Voice.sound _ _ _).1.table = _
    rw [sound_eq]
    exact ih

theorem smooth_of_zero (haccepted : v.settings.Accepted)
    (hzero : (v.settings.smoothing == 0) = true) (value : Float32) :
    v.smooth value = value := by
  obtain ⟨hfinite, -⟩ := haccepted.smoothing
  unfold smooth
  dsimp only
  rw [if_neg]
  rw [pos_iff hfinite, (beq_zero_iff hfinite).mp hzero]
  exact lt_irrefl 0

/-- The answer of a new voice is what it synthesizes with the energy of the
meter. -/
theorem answer_eq_synthesize (haccepted : v.settings.Accepted)
    (hzero : (v.settings.smoothing == 0) = true) (henergy : v.energy = 0)
    (signal : ℕ → Float32) (n : ℕ) :
    (((Detector.start v).afterHearing signal n).hear (signal n)).2 =
      ({ v with energy := (PeriodMeter.after signal (n + 1)).energy } :
        Voice).synthesize (PeriodMeter.after signal (n + 1)) := by
  have hanswer :
      (((Detector.start v).afterHearing signal n).hear (signal n)).2 =
        (((Detector.start v).afterHearing signal n).player.sound
          ((Detector.start v).afterHearing signal (n + 1)).meter
          ((Detector.start v).closes signal n)).2 := rfl
  obtain ⟨hquantizer, hsettings, hcharged⟩ :=
    (follows_afterHearing (q := v.quantizer) ⟨rfl, rfl, henergy⟩
      signal n).charged
  have htable :
      (((Detector.start v).afterHearing signal n).player.charged
        (PeriodMeter.reported signal n)).table = v.table :=
    table_afterHearing v signal n
  rw [hanswer, Detector.meter_start, Detector.closes_start, sound_eq]
  generalize ((Detector.start v).afterHearing signal n).player.charged
    (PeriodMeter.reported signal n) = now at *
  rw [smooth_of_zero (hsettings ▸ haccepted) (hsettings ▸ hzero), ← hquantizer,
    ← hsettings, ← hcharged, ← htable]
  rfl

end Run

/-! ## Silence -/

/-- A voice without smoothing is silent on every sample of a signal that, where
it is finite, does not exceed half of the noise floor, whatever its waveform
is. -/
theorem silent_below_noise_floor {q : Quantizer} {settings : VoiceSettings}
    {size : ℕ} {v : Voice} (hv : ofSettings q settings size = .ok v)
    (hzero : (settings.smoothing == 0) = true)
    (hfloor : exact settings.noiseFloor ≤ 2 ^ 60) {signal : ℕ → Float32} {n : ℕ}
    (hn : n < 2 ^ 24)
    (hquiet : ∀ i < n, (signal i).isFinite = true →
      2 * |exact (signal i)| ≤ exact settings.noiseFloor) :
    ∀ i < n,
      (((Detector.start v).afterHearing signal i).hear (signal i)).2 = 0 := by
  obtain ⟨hfault, -, rfl, hfresh, -⟩ := ofSettings_ok hv
  have haccepted := VoiceSettings.accepted_of_fault? hfault
  have hnonneg := ((VoiceSettings.isAmount_iff _).mp haccepted.noiseFloor).2
  intro i hi
  have hsilenced : ∀ j <
      i + 1, Within (exact v.settings.noiseFloor / 2) (silenced signal j) := by
    intro j hj
    refine PeriodMeter.within_silenced (by linarith) fun hfinite => ?_
    linarith [hquiet j (by omega) hfinite]
  have henergy := PeriodMeter.within_energy_after (by omega) (by linarith)
    (by norm_num at hfloor ⊢; linarith) hsilenced
  rw [mul_div_cancel₀ _ (by norm_num)] at henergy
  have henergynonneg := PeriodMeter.zero_le_energy signal (i + 1)
  rw [le_iff rfl henergy.isFinite, exact_zero] at henergynonneg
  rw [answer_eq_synthesize haccepted hzero hfresh]
  apply synthesize_of_level
  exact level_of_quiet haccepted henergy.isFinite henergynonneg
    ((le_abs_self _).trans henergy.abs_le)

/-- A whisper of both signs at half the standard noise floor, with samples that
are no numbers in between. -/
def whisper (n : ℕ) : Float32 :=
  if n % 5 = 4 then 0 / 0 else if n % 2 = 0 then 0.05 else -0.05

/-- A cycle of the whisper has more energy than any of its samples, and is not
heard. -/
theorem whisper_is_silent :
    ∃ v, ofSettings coarse .standard 8 = .ok v ∧
      ((VoiceSettings.standard.smoothing == 0) = true ∧
        exact VoiceSettings.standard.noiseFloor ≤ 2 ^ 60 ∧
        (∀ i < 9, (whisper i).isFinite = true →
          2 * |exact (whisper i)| ≤ exact VoiceSettings.standard.noiseFloor)) ∧
      (∃ c ∈ PeriodMeter.reports whisper 9, 0.05 < c.energy) ∧
      ∀ i < 9,
      (((Detector.start v).afterHearing whisper i).hear (whisper i)).2 = 0 := by
  have hv := ofSettings_eq_ok coarse
    (show VoiceSettings.standard.fault? = none by decide +kernel)
      (show 0 < 8 by decide)
  have hzero : (VoiceSettings.standard.smoothing == 0) = true := by
    decide +kernel
  have hfloor : exact VoiceSettings.standard.noiseFloor ≤ 2 ^ 60 := by
    decide +kernel
  have hquiet : ∀ i < 9, (whisper i).isFinite = true →
      2 * |exact (whisper i)| ≤ exact VoiceSettings.standard.noiseFloor := by
    decide +kernel
  exact ⟨_, hv, ⟨hzero, hfloor, hquiet⟩, by decide +kernel,
    silent_below_noise_floor hv hzero hfloor (by norm_num) hquiet⟩

/-! ## Repetition -/

/-- A voice without smoothing that hears a periodic signal with one crossing a
period repeats itself every 48 periods, from the fourth period on.  The number
of cycles is another one by then, but nothing is synthesized from it. -/
theorem repeats_after_48_periods {q : Quantizer} {settings : VoiceSettings}
    {size : ℕ} {v : Voice} (hv : ofSettings q settings size = .ok v)
    (hzero : (settings.smoothing == 0) = true) {signal : ℕ → Float32} {T : ℕ}
    (hsignal : PeriodMeter.CrossesOnce signal T) {i : ℕ} (hi : 3 * T ≤ i) :
    (((Detector.start v).afterHearing signal (i + 48 * T)).hear
        (signal (i + 48 * T))).2 =
      (((Detector.start v).afterHearing signal i).hear (signal i)).2 := by
  obtain ⟨hfault, -, rfl, hfresh, -⟩ := ofSettings_ok hv
  have haccepted := VoiceSettings.accepted_of_fault? hfault
  rw [answer_eq_synthesize haccepted hzero hfresh,
    answer_eq_synthesize haccepted hzero hfresh, Nat.add_right_comm,
    hsignal.after_add_48_periods (Nat.le_succ_of_le hi)]
  rfl

/-- A tooth of three samples, the last of them behind the crossing. -/
def sawtooth (n : ℕ) : Float32 :=
  if n % 3 = 0 then 1 else if n % 3 = 1 then 0.5 else -0.25

theorem crossesOnce_sawtooth : PeriodMeter.CrossesOnce sawtooth 3 where
  periodic n := by rw [sawtooth, Nat.add_mod_right, sawtooth]
  isFinite n := by
    unfold sawtooth
    split_ifs <;> rfl
  once := by
    have hfalls : FallsAt sawtooth 5 :=
      ⟨by decide +kernel,
        (risenBefore_succ_of_nonzero (n := 4) (by decide +kernel)).mpr
          (by decide +kernel)⟩
    refine ⟨2, ⟨by decide, hfalls⟩, ?_⟩
    rintro r ⟨hr, hnegative, -⟩
    have hnot : ∀ r < 2, ¬ sawtooth (3 + r) < 0 := by decide +kernel
    by_contra hne
    exact hnot r (by omega) hnegative

/-- The sawtooth sounds again as it did 48 periods ago, but not after 24 of
them. -/
theorem sawtooth_repeats :
    ∃ v, ofSettings coarse .standard 8 = .ok v ∧
      ((VoiceSettings.standard.smoothing == 0) = true ∧
        PeriodMeter.CrossesOnce sawtooth 3 ∧
        3 * 3 ≤ 9) ∧
      (((Detector.start v).afterHearing sawtooth (9 + 24 * 3)).hear
          (sawtooth (9 + 24 * 3))).2 ≠
        (((Detector.start v).afterHearing sawtooth 9).hear (sawtooth 9)).2 ∧
      (((Detector.start v).afterHearing sawtooth (9 + 48 * 3)).hear
          (sawtooth (9 + 48 * 3))).2 =
        (((Detector.start v).afterHearing sawtooth 9).hear (sawtooth 9)).2 := by
  have hv := ofSettings_eq_ok coarse
    (show VoiceSettings.standard.fault? = none by decide +kernel)
      (show 0 < 8 by decide)
  have hzero : (VoiceSettings.standard.smoothing == 0) = true := by
    decide +kernel
  exact ⟨_, hv, ⟨hzero, crossesOnce_sawtooth, le_rfl⟩, by decide +kernel,
    repeats_after_48_periods hv hzero crossesOnce_sawtooth le_rfl⟩

end PitchFollower.Undertone.Voice
