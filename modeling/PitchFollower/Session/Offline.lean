import PitchFollower.Decimal.Fixed
import PitchFollower.Midi.Description
import PitchFollower.Midi.Emitter
import PitchFollower.Settings.Basic
import PitchFollower.Undertone.Voice
import PitchFollower.Wave.Recording

/-!
# Playing recordings

Both instruments over a whole recording: the emitter gives a list of events with
the times at which they are sent, and the undertone voice another recording.
-/

namespace PitchFollower.Session

/-- An event, with the number of samples heard before it was sent. -/
structure TimedEvent where
  heard : Nat
  event : Midi.Event

/-- The scale of a whistle at the rate of a recording. -/
def quantizerOf (recording : Wave.Recording) : Except Fault Quantizer :=
  Quantizer.ofRate recording.rate.toFloat32 .whistle

/-- All events of an emitter over a list of samples.  At the end the sounding
note is released. -/
def events (emitter : Midi.Emitter) (samples : Array Float32) :
    List TimedEvent :=
  let (detector, answers) := (Detector.start emitter).hearAll samples
  let played := (answers.toList.zipIdx 1).flatMap fun (sent, heard) =>
    sent.map (⟨heard, ·⟩)
  played ++ detector.player.release.2.map (⟨detector.heard, ·⟩)

/-- The time of an event in seconds. -/
def TimedEvent.time (rate : UInt32) (e : TimedEvent) : Float :=
  e.heard.toUInt64.toFloat / rate.toFloat

/-- One line about an event and its time. -/
def TimedEvent.line (rate : UInt32) (e : TimedEvent) : String :=
  Decimal.padLeft 9 (Decimal.writeFixed 3 (e.time rate)) ++ " s  " ++
    e.event.describe

/-- The lines about all events over a recording. -/
def transcribe (settings : Settings) (recording : Wave.Recording) :
    Except Fault (List String) := do
  let emitter ← Midi.Emitter.ofSettings (← quantizerOf recording)
    settings.emitter
  return (events emitter recording.samples).map (TimedEvent.line recording.rate)

/-- The undertones of a recording. -/
def undertones (settings : Settings) (recording : Wave.Recording) :
    Except Fault Wave.Recording := do
  let voice ← Undertone.Voice.ofSettings (← quantizerOf recording)
    settings.voice
    Wavetable.defaultSize
  return { recording with
    samples := ((Detector.start voice).hearAll recording.samples).2 }

end PitchFollower.Session
