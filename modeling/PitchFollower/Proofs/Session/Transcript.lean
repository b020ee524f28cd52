import PitchFollower.Proofs.Period.Cycles
import PitchFollower.Proofs.Session.Teardown
import PitchFollower.Proofs.Session.Times
import PitchFollower.Proofs.Single.Conversions
import PitchFollower.Proofs.Tuning.Range

/-!
# Transcripts of recordings

A recording is transcribed by an emitter that hears its samples.  This module
compares the lines with the log of an emitter that hears the same samples and is
released behind them.  Nothing is lost, repeated or moved to another time, so
what is known about the log holds for the lines: each note ends before another
one starts, and none is left on.
-/

namespace PitchFollower.Session

open Midi (Emitter EmitterSettings Event LoudnessWindow Transmitter followAll)

/-! ## Timelines -/

/-- What a log has gained with each sample and with the release behind them,
each event with the number of samples heard before it was sent. -/
def timeline (gains : List (List Event)) (released : List Event) :
    List TimedEvent :=
  (gains.zipIdx 1).flatMap (fun (sent, heard) => sent.map (⟨heard, ·⟩)) ++
    released.map (⟨gains.length, ·⟩)

section Timeline

variable (gains : List (List Event)) (released : List Event)

theorem map_event_timeline :
    (timeline gains released).map TimedEvent.event =
      gains.flatten ++ released := by
  have hgains : ((gains.zipIdx 1).flatMap fun (sent, heard) =>
      sent.map (TimedEvent.mk heard)).map TimedEvent.event = gains.flatten := by
    calc ((gains.zipIdx 1).flatMap fun (sent, heard) =>
          sent.map (TimedEvent.mk heard)).map TimedEvent.event
        = (gains.zipIdx 1).flatMap Prod.fst := by
          simp [List.map_flatMap, Function.comp_def]
      _ = gains.flatten := by
          rw [List.flatMap_def, List.zipIdx_map_fst]
  rw [timeline, List.map_append, hgains, List.map_map]
  exact congrArg (gains.flatten ++ ·) (List.map_id released)

/-- No event is sent before the first sample or after the last one. -/
theorem heard_of_mem_timeline {e : TimedEvent}
    (he : e ∈ timeline gains released)
    (hreleased : gains = [] → released = []) :
    0 < e.heard ∧ e.heard ≤ gains.length := by
  rw [timeline, List.mem_append, List.mem_flatMap] at he
  rcases he with ⟨⟨sent, heard⟩, hgain, hsent⟩ | hend
  · obtain ⟨_, -, rfl⟩ := List.mem_map.mp hsent
    obtain ⟨hfirst, hlast, -⟩ := List.mem_zipIdx hgain
    exact ⟨hfirst, Nat.lt_succ_iff.mp (by rwa [add_comm] at hlast)⟩
  · obtain ⟨_, hevent, rfl⟩ := List.mem_map.mp hend
    refine ⟨List.length_pos_iff.mpr fun hnil => ?_, le_rfl⟩
    rw [hreleased hnil] at hevent
    exact absurd hevent List.not_mem_nil

/-- The number of samples heard before the events never falls. -/
theorem heard_pairwise_timeline :
    (timeline gains released).Pairwise fun e later =>
      e.heard ≤ later.heard := by
  have hgains : (gains.zipIdx 1).Pairwise fun gain later =>
      gain.2 < later.2 := by
    rw [← List.pairwise_map (R := (· < ·)), List.zipIdx_map_snd]
    exact List.pairwise_lt_range'
  have hsame (events : List Event) (heard : ℕ) :
      (events.map (TimedEvent.mk heard)).Pairwise fun e later =>
        e.heard ≤ later.heard := by
    rw [List.pairwise_map]
    exact List.pairwise_of_forall fun _ _ => le_rfl
  rw [timeline, List.pairwise_append, List.pairwise_flatMap]
  refine ⟨⟨fun gain _ => hsame gain.1 gain.2,
      hgains.imp fun hlt e he later hlater => ?_⟩,
    hsame released gains.length, fun e he later hlater => ?_⟩
  · obtain ⟨_, -, rfl⟩ := List.mem_map.mp he
    obtain ⟨_, -, rfl⟩ := List.mem_map.mp hlater
    exact hlt.le
  · obtain ⟨⟨sent, heard⟩, hgain, hsent⟩ := List.mem_flatMap.mp he
    obtain ⟨_, -, rfl⟩ := List.mem_map.mp hsent
    obtain ⟨_, -, rfl⟩ := List.mem_map.mp hlater
    obtain ⟨-, hlast, -⟩ := List.mem_zipIdx hgain
    exact Nat.lt_succ_iff.mp (by rwa [add_comm] at hlast)

end Timeline

/-! ## The log of a recording -/

/-- The session of an emitter over some samples, without the release. -/
def Offline.over (e : Emitter) (samples : Array Float32) : Offline :=
  samples.foldl Offline.hear (Offline.session e [])

/-- A detector in front of an emitter, with its answers, beside a session that
hears the same `n` samples of a signal. -/
structure Follows (signal : ℕ → Float32) (n : ℕ) (d : Detector Emitter)
    (answers : Array (List Event)) (o : Offline) : Prop where
  meter : d.meter = .after signal n
  meter_eq : o.detector.meter = d.meter
  player : o.detector.player.emitter = d.player
  heard : d.heard = n
  gains : o.gains = answers.toList
  log : o.events = o.gains.flatten
  length : o.gains.length = n
  /-- Only samples that close a cycle add to the log. -/
  idle : ∀ i < n, PeriodMeter.reported signal i = none → o.gains[i]? = some []

section Follows

variable {signal : ℕ → Float32} {n : ℕ} {d : Detector Emitter}
variable {answers : Array (List Event)}
  {o : Offline}

theorem Follows.hear (h : Follows signal n d answers o) :
    Follows signal (n + 1) (d.hear (signal n)).1
      (answers.push (d.hear (signal n)).2)
      (o.hear (signal n)) := by
  have hreported : (d.meter.hear (signal n)).2 =
      PeriodMeter.reported signal n := by
    rw [h.meter]
    rfl
  have hnext : o.hear (signal n) = o.moveTo ⟨(d.meter.hear (signal n)).1,
      (Transmitter.deliver o.detector.player.outlet
        (Player.play d.player (d.meter.hear (signal n)).1
          (d.meter.hear (signal n)).2)).1,
      o.detector.heard + 1⟩ := by
    simp only [Offline.hear, Detector.hear, Transmitter.play_eq_deliver,
      h.meter_eq, h.player]
  obtain ⟨hevents, hgains⟩ :=
    o.moveTo_deliver (d.meter.hear (signal n)).1 (o.detector.heard + 1)
    (Player.play d.player (d.meter.hear (signal n)).1
      (d.meter.hear (signal n)).2)
  rw [hnext]
  refine ⟨?_, rfl, rfl, congrArg (· + 1) h.heard, ?_, ?_, ?_,
    fun i hi hnone => ?_⟩
  · change (d.meter.hear (signal n)).1 = _
    rw [h.meter]
    rfl
  · rw [hgains, h.gains, Array.toList_push]
    rfl
  · rw [hevents, hgains, h.log, List.flatten_append, List.flatten_singleton]
  · rw [hgains, List.length_append, h.length, List.length_singleton]
  · rw [hgains]
    rcases Nat.lt_succ_iff_lt_or_eq.mp hi with hlt | rfl
    · rw [List.getElem?_append_left (h.length.symm ▸ hlt)]
      exact h.idle i hlt hnone
    · rw [hreported, hnone, ← h.length, List.getElem?_concat_length]
      rfl

/-- The detector and the session hear each sample at the end of the array that
they have heard before. -/
theorem follows_over (e : Emitter) (signal : ℕ → Float32) (n : ℕ) :
    let samples := Array.ofFn fun i : Fin n => signal i
    Follows signal n ((Detector.start e).hearAll samples).1
      ((Detector.start e).hearAll samples).2
      (Offline.over e samples) := by
  induction n with
  | zero => exact ⟨rfl, rfl, rfl, rfl, rfl, rfl, rfl,
    fun i hi => absurd hi (Nat.not_lt_zero i)⟩
  | succ n ih =>
    intro samples
    have hnext := Follows.hear ih
    simp only [samples, Array.ofFn_succ, Detector.hearAll_push, Offline.over,
      Array.foldl_push]
    exact hnext

/-- The samples of an array are heard as a signal that goes on with zeros. -/
theorem follows_samples (e : Emitter) (samples : Array Float32) :
    Follows (samples.getD · 0) samples.size
      ((Detector.start e).hearAll samples).1
      ((Detector.start e).hearAll samples).2 (Offline.over e samples) := by
  have hsamples :
      (Array.ofFn fun i : Fin samples.size => samples.getD i 0) = samples :=
    Array.ext Array.size_ofFn fun i _ _ => by simp
  have h := follows_over e (samples.getD · 0) samples.size
  rwa [hsamples] at h

/-- Without events there is nothing to release. -/
theorem InStep.release_eq_nil {e : Emitter} (h : InStep e o)
    (hempty : o.events = []) : o.detector.player.emitter.release.2 = [] := by
  have hsounding := h.follows
  rw [hempty] at hsounding
  change (o.detector.player.emitter.gate.sounding.map _).toList = []
  rw [← Option.some_inj.mp hsounding]
  rfl

end Follows

/-- A list of all events in the log of a session over some samples and of its
release, each event once and in the order in which it was sent.  An event that a
sample caused stands there with the number of samples up to this one, an event
of the release with the number of all samples. -/
structure Accounts (o : Offline) (samples : Array Float32)
    (timed : List TimedEvent) : Prop where
  complete : timed.map TimedEvent.event = o.release.events
  times : timed = timeline o.gains o.detector.player.emitter.release.2
  length : o.gains.length = samples.size
  /-- Only samples that close a cycle cause events. -/
  idle : ∀ i < samples.size, PeriodMeter.reported (samples.getD · 0) i = none →
    o.gains[i]? = some []

section Accounts

variable (e : Emitter) (samples : Array Float32)

theorem events_eq_timeline :
    events e samples = timeline (Offline.over e samples).gains
      (Offline.over e samples).detector.player.emitter.release.2 := by
  have h := follows_samples e samples
  rw [timeline, h.length, h.gains, h.player, ← h.heard]
  rfl

theorem heard_pairwise_events :
    (events e samples).Pairwise fun t later => t.heard ≤ later.heard := by
  rw [events_eq_timeline]
  exact heard_pairwise_timeline _ _

theorem accounts_over :
    Accounts (Offline.over e samples) samples (events e samples) := by
  have h := follows_samples e samples
  obtain ⟨hlog, -⟩ := (Offline.over e samples).moveTo_deliver
    (Offline.over e samples).detector.meter
      (Offline.over e samples).detector.heard
    (Offline.over e samples).detector.player.emitter.release
  refine ⟨?_, events_eq_timeline e samples, h.length, h.idle⟩
  rw [events_eq_timeline, map_event_timeline, ← h.log]
  exact hlog.symm

end Accounts

section Sessions

variable {e : Emitter} (hfault : e.settings.fault? = none)
  (hfresh : e.gate = .silent e.settings.gateThreshold) (samples : Array Float32)

include hfault hfresh

theorem inStep_over : InStep e (Offline.over e samples) :=
  (inStep_session hfault hfresh []).hearAll hfault samples

/-- No note is left on. -/
theorem followAll_events :
    followAll e.settings.channel none
      ((events e samples).map TimedEvent.event) = some none := by
  rw [(accounts_over e samples).complete]
  exact ((inStep_over hfault hfresh samples).release hfault).follows

theorem heard_of_mem_events :
    ∀ t ∈ events e samples, 0 < t.heard ∧ t.heard ≤ samples.size := by
  intro t ht
  have h := follows_samples e samples
  rw [events_eq_timeline] at ht
  rw [← h.length]
  apply heard_of_mem_timeline _ _ ht
  intro hnil
  apply (inStep_over hfault hfresh samples).release_eq_nil
  rw [h.log, hnil]
  rfl

end Sessions

/-! ## Lines -/

/-- Every note that starts is ended by the next note event. -/
def EndInTurn (events : List Event) : Prop :=
  ∀ channel note velocity before after,
    events = before ++ .noteOn channel note velocity :: after →
      ∃ between w rest, after = between ++ .noteOff channel note w :: rest ∧
        ∀ event ∈ between, event.isNote = false

/-- The rate of a recording is a sample rate, unless it is zero. -/
theorem exists_quantizerOf {recording : Wave.Recording}
    (hrate : recording.rate ≠ 0) :
    ∃ quantizer, quantizerOf recording = .ok quantizer := by
  have hpositive : Single.IsPositive recording.rate.toFloat32 := by
    have hmost : recording.rate.toNat < 2 ^ 64 :=
      recording.rate.toNat_lt.trans (by norm_num)
    have hleast := Single.exact_ofNat_mono hmost (toNat_pos_of_ne_zero hrate)
    rw [Single.exact_ofNat (by norm_num)] at hleast
    rw [Single.toFloat32_eq, Single.isPositive_iff]
    exact ⟨(Single.ofNat_finite hmost).1, by push_cast at hleast; linarith⟩
  exact ⟨_, dif_pos hpositive⟩

theorem transcribe_eq {settings : Settings} {recording : Wave.Recording}
    {quantizer : Quantizer} (h : quantizerOf recording = .ok quantizer) :
    transcribe settings recording =
      (Emitter.ofSettings quantizer settings.emitter).map fun e =>
        (events e recording.samples).map (TimedEvent.line recording.rate) := by
  rw [transcribe, h]
  change (Emitter.ofSettings quantizer settings.emitter).bind _ = _
  cases Emitter.ofSettings quantizer settings.emitter <;> rfl

/-- A recording is transcribed by one line for each event of an emitter that
hears it and is released behind it, in the order in which the events are sent.
The time in a line is the one at which the sample ends that closed the cycle, or
at which the recording ends, up to the rounding.  So the times never fall, each
note is ended before another one starts, and none is left on.  Only a window for
which there is no room leaves a recording without an emitter and without lines.
Samples are counted in a word of 64 bits. -/
theorem transcript_of_recording {settings : Settings}
    {recording : Wave.Recording} (hrate : recording.rate ≠ 0)
    (hfault : settings.emitter.fault? = none)
    (hsize : recording.samples.size < 2 ^ 64) :
    ∃ quantizer, quantizerOf recording = .ok quantizer ∧
      (¬ HasRoom settings.emitter.windowSize.toNat LoudnessWindow.energyBytes →
        Emitter.ofSettings quantizer settings.emitter = .error .bufferSize ∧
          transcribe settings recording = .error .bufferSize) ∧
      (HasRoom settings.emitter.windowSize.toNat LoudnessWindow.energyBytes →
        ∃ e timed, Emitter.ofSettings quantizer settings.emitter = .ok e ∧
          transcribe settings recording =
            .ok (timed.map (TimedEvent.line recording.rate)) ∧
          Accounts (Offline.over e recording.samples) recording.samples timed ∧
          (∀ t ∈ timed,
            |(thousandths (t.line recording.rate) : ℚ) -
                1000 * (t.heard / recording.rate.toNat)| ≤
              1 / 2 + 1000 * (t.heard / recording.rate.toNat) / 2 ^ 51) ∧
          timed.Pairwise (fun t later =>
            thousandths (t.line recording.rate) ≤
              thousandths (later.line recording.rate)) ∧
          EndInTurn (timed.map TimedEvent.event) ∧
          followAll settings.emitter.channel none (timed.map TimedEvent.event) =
            some none) := by
  obtain ⟨quantizer, hquantizer⟩ := exists_quantizerOf hrate
  refine ⟨quantizer, hquantizer, fun hroom => ?_, fun hroom => ?_⟩
  · have herror := Midi.ofSettings_eq_error quantizer hfault hroom
    refine ⟨herror, ?_⟩
    rw [transcribe_eq hquantizer, herror]
    rfl
  · have hwindow := (EmitterSettings.window_of_fault? hfault).1
    obtain ⟨e,
        he⟩ : ∃ e, Emitter.ofSettings quantizer settings.emitter = .ok e :=
      ⟨_, Midi.ofSettings_eq_ok quantizer hfault hwindow hroom⟩
    obtain ⟨-, hsettings, hfresh⟩ := Midi.ofSettings_ok he
    rw [← hsettings] at hfault hfresh
    have hheard := heard_of_mem_events hfault hfresh recording.samples
    have hfollows := followAll_events hfault hfresh recording.samples
    rw [hsettings] at hfollows
    refine ⟨e, events e recording.samples, he, ?_,
      accounts_over e recording.samples, fun t ht => ?_, ?_, ?_, hfollows⟩
    · rw [transcribe_eq hquantizer, he]
      rfl
    · obtain ⟨hpos, hmost⟩ := hheard t ht
      exact abs_thousandths_sub_le hpos (hmost.trans_lt hsize) hrate
    · apply (heard_pairwise_events e recording.samples).imp_of_mem
      intro t later ht hlater hle
      exact thousandths_mono (hheard t ht).1 hle
        ((hheard later hlater).2.trans_lt hsize) hrate
    · intro channel note velocity before after hstart
      rw [hstart] at hfollows
      exact exists_end_of_noteOn hfollows

/-- Two notes an octave apart, at a rate so low that they take a few samples. -/
def octave : Wave.Recording :=
  ⟨2640, #[1, -1, 1, 1, -1]⟩

/-- Settings under which the first cycle is as loud as those that follow. -/
def instant : Settings :=
  { Settings.standard with
    emitter := { EmitterSettings.standard with windowSize := 1 } }

theorem octave_transcript :
    octave.rate ≠ 0 ∧ instant.emitter.fault? = none ∧
      octave.samples.size < 2 ^ 64 ∧
      HasRoom instant.emitter.windowSize.toNat LoudnessWindow.energyBytes ∧
      ∃ timed : List TimedEvent,
        transcribe instant octave =
          .ok (timed.map (TimedEvent.line octave.rate)) ∧
        timed.map (TimedEvent.line octave.rate) =
          ["    0.001 s  cc  11 =  85, channel 1",
            "    0.001 s  note on    A4 ( 69) velocity 100, channel 1",
            "    0.002 s  cc  11 =  64, channel 1",
            "    0.002 s  note off   A4 ( 69), channel 1",
            "    0.002 s  note on    A3 ( 57) velocity 100, channel 1",
            "    0.002 s  note off   A3 ( 57), channel 1"] ∧
        timed.Pairwise (fun t later =>
          thousandths (t.line octave.rate) ≤
            thousandths (later.line octave.rate)) ∧
        EndInTurn (timed.map TimedEvent.event) ∧
        followAll instant.emitter.channel none (timed.map TimedEvent.event) =
          some none := by
  have hrate : octave.rate ≠ 0 := by decide
  have hfault : instant.emitter.fault? = none := by decide +kernel
  have hsize : octave.samples.size < 2 ^ 64 := by decide
  have hroom : HasRoom instant.emitter.windowSize.toNat
      LoudnessWindow.energyBytes := by decide
  obtain ⟨quantizer, -, -, htranscript⟩ :=
    transcript_of_recording hrate hfault hsize
  obtain ⟨e, timed, -, hlines, -, -, hordered, hturns, hfollows⟩ :=
    htranscript hroom
  refine ⟨hrate, hfault, hsize, hroom, timed, hlines, ?_, hordered, hturns,
    hfollows⟩
  have hshown := congrArg Except.toOption hlines
  exact (Option.some_inj.mp (hshown.symm.trans (by decide +kernel)))

end PitchFollower.Session
