import PitchFollower.Proofs.Midi.Notes
import PitchFollower.Proofs.Period.Reports
import PitchFollower.Proofs.Tuning.Range
import PitchFollower.Proofs.Undertone.Answers

/-!
# Notes under a voice

A voice and an emitter that share a quantizer hear the same signal.  The voice
asks whether the last period is in range, and the emitter which note the period
of the last cycle has.  The voice has no energy until a cycle has been closed,
and from then on both look at the same period.  So whenever the voice sounds,
and not only an echo of its last output, the emitter has a note.
-/

namespace PitchFollower

open Single

namespace Midi

/-- What an emitter has kept of a signal: the note of the last period, once a
cycle has been closed.  Before that the meter has no energy. -/
structure Emitter.Follows (q : Quantizer) (meter : PeriodMeter) (e : Emitter) :
    Prop where
  quantizer : e.quantizer = q
  detected : meter.energy = 0 ∨ e.detected = q.note? meter.period

section Emitter

variable {q : Quantizer} {signal : ℕ → Float32} {σ ε : Type} [Outlet σ ε]

theorem Emitter.Follows.play {n : ℕ} {t : Transmitter σ}
    (h : t.emitter.Follows q (PeriodMeter.after signal n)) :
    (Player.play t (PeriodMeter.after signal (n + 1))
      (PeriodMeter.reported signal n)).1.emitter.Follows
      q (PeriodMeter.after signal (n + 1)) := by
  cases hcycle : PeriodMeter.reported signal n with
  | none =>
    obtain ⟨hperiod, henergy⟩ := PeriodMeter.held_of_not_reported hcycle
    refine ⟨h.quantizer, ?_⟩
    rw [henergy, hperiod]
    exact h.detected
  | some c =>
    refine ⟨h.quantizer, .inr ?_⟩
    rw [(PeriodMeter.held_of_reported hcycle).1, ← h.quantizer]
    rfl

/-- An emitter that hears a signal from its start follows the meter. -/
theorem follows_afterHearing {t : Transmitter σ}
    (hquantizer : t.emitter.quantizer = q) (signal : ℕ → Float32) (n : ℕ) :
    ((Detector.start t).afterHearing signal n).player.emitter.Follows q
      (PeriodMeter.after signal n) := by
  induction n with
  | zero => exact ⟨hquantizer, .inl rfl⟩
  | succ n ih =>
    rw [Detector.player_afterHearing_succ, Detector.meter_start,
      Detector.closes_start]
    exact ih.play

end Emitter

end Midi

namespace Undertone.Voice

/-! ## Silence -/

section Silence

variable {v : Voice} {m : PeriodMeter}

/-- Without energy there is no level above the noise floor. -/
theorem level_of_no_energy (haccepted : v.settings.Accepted)
    (henergy : v.energy = 0) : (v.level == 0) = true := by
  have hfloor := ((VoiceSettings.isAmount_iff _).mp haccepted.noiseFloor).2
  apply level_of_quiet haccepted
  · rw [henergy]
    rfl
  · rw [henergy, exact_zero]
  · rwa [henergy, exact_zero]

/-- A voice that is not silent has a period in range and an energy. -/
theorem inRange_of_synthesize (haccepted : v.settings.Accepted)
    (h : (v.synthesize m == 0) = false) :
    v.quantizer.InRange m.period ∧ v.energy ≠ 0 := by
  refine ⟨by_contra fun hrange => ?_, fun henergy => ?_⟩
  · rw [synthesize, if_neg hrange] at h
    cases h
  · rw [synthesize_of_level (level_of_no_energy haccepted henergy)] at h
    cases h

end Silence

/-! ## Runs -/

section Run

variable {q : Quantizer} {settings : VoiceSettings} {signal : ℕ → Float32}
variable {v : Voice} {n : ℕ}

/-- The answer to a sample is not zero only if the meter, with this sample, has
a period in range and an energy. -/
theorem inRange_of_answer (haccepted : settings.Accepted)
    (hzero : (settings.smoothing == 0) = true) (h : Follows q settings .start v)
    (hsounds :
      ((((Detector.start v).afterHearing signal n).hear (signal n)).2 == 0) =
        false) :
    q.InRange (PeriodMeter.after signal (n + 1)).period ∧
      (PeriodMeter.after signal (n + 1)).energy ≠ 0 := by
  obtain ⟨rfl, rfl, henergy⟩ := h
  rw [answer_eq_synthesize haccepted hzero henergy] at hsounds
  exact inRange_of_synthesize
    (v := { v with energy := (PeriodMeter.after signal (n + 1)).energy })
    haccepted hsounds

end Run

theorem quantizer_of_ofSettings {q : Quantizer} {settings : VoiceSettings}
    {size : ℕ} {v : Voice} (h : ofSettings q settings size = .ok v) :
    v.quantizer = q := by
  obtain ⟨hfault, htable, -⟩ := ofSettings_ok h
  unfold Wavetable.ofSize at htable
  split_ifs at htable with hsize
  rw [ofSettings_eq_ok q hfault hsize] at h
  cases h
  rfl

/-- Whenever a voice without smoothing sounds, an emitter with the same
quantizer that hears the same signal has a note, and every period in range has
one. -/
theorem sounds_on_notes {q : Quantizer} {settings : VoiceSettings} {size : ℕ}
    {v : Voice} (hv : ofSettings q settings size = .ok v)
    (hzero : (settings.smoothing == 0) = true) {options : Midi.EmitterSettings}
    {e : Midi.Emitter} (he : Midi.Emitter.ofSettings q options = .ok e)
    (monitor : Option Midi.Monitor) {σ ε : Type} [Midi.Outlet σ ε] (outlet : σ)
    (signal : ℕ → Float32) :
    (∀ n,
      ((((Detector.start v).afterHearing signal n).hear (signal n)).2 == 0) =
        false →
      ((Detector.start
        (⟨{ e with monitor }, outlet⟩ : Midi.Transmitter σ)).afterHearing
          signal (n + 1)).player.emitter.detected.isSome = true) ∧
    ∀ period, q.InRange period → (q.note? period).isSome = true := by
  refine ⟨fun n hsounds => ?_, fun period hrange => hrange.isSome_note?⟩
  obtain ⟨hfault, -, hsettings, henergy, -⟩ := ofSettings_ok hv
  have hvoice : Follows q settings .start v :=
    ⟨quantizer_of_ofSettings hv, hsettings, henergy⟩
  have hquantizer : e.quantizer = q := by
    obtain ⟨-, window, -, rfl⟩ := Midi.ofSettings_eq he
    rfl
  have hemitter := Midi.follows_afterHearing (q := q)
    (t := (⟨{ e with monitor }, outlet⟩ : Midi.Transmitter σ))
    hquantizer signal (n + 1)
  obtain ⟨hrange, hcharged⟩ :=
    inRange_of_answer (VoiceSettings.accepted_of_fault? hfault) hzero
      hvoice hsounds
  rw [hemitter.detected.resolve_left hcharged]
  exact hrange.isSome_note?

theorem sounds_on_notes_of_alternating :
    ∃ v e, ofSettings coarse .standard 8 = .ok v ∧
      Midi.Emitter.ofSettings coarse .standard = .ok e ∧
      ((VoiceSettings.standard.smoothing == 0) = true ∧
        ((((Detector.start v).afterHearing alternating 3).hear
          (alternating 3)).2 == 0) = false) ∧
      ((Detector.start
        (⟨{ e with monitor := none }, .empty⟩ :
          Midi.Transmitter Midi.EventLog)).afterHearing
            alternating (3 + 1)).player.emitter.detected.isSome = true := by
  have hv := ofSettings_eq_ok coarse
    (show VoiceSettings.standard.fault? = none by decide +kernel)
    (show 0 < 8 by decide)
  have he := Midi.ofSettings_eq_ok coarse
    (show Midi.EmitterSettings.standard.fault? = none by decide +kernel)
    (by decide) (by decide)
  have hzero : (VoiceSettings.standard.smoothing == 0) = true := by
    decide +kernel
  have hsounds :
      ((((Detector.start
        (⟨coarse, .standard, .sine 8 (by decide), 0, 0⟩ : Voice)).afterHearing
          alternating 3).hear (alternating 3)).2 == 0) = false := by
    decide +kernel
  exact ⟨_, _, hv, he, ⟨hzero, hsounds⟩,
    (sounds_on_notes hv hzero he none Midi.EventLog.empty alternating).1 3
      hsounds⟩

end Undertone.Voice

end PitchFollower
