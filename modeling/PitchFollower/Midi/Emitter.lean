import PitchFollower.Midi.Monitor
import PitchFollower.Midi.Settings
import PitchFollower.Period.Detector
import PitchFollower.Tuning.Quantizer

/-!
# Emitters

An emitter turns closed cycles into MIDI events.  For every cycle it names and
transposes the note, updates the loudness, and lists the events to be sent: an
expression change if the loudness changed, then the end of the sounding note
and the start of a new one if a loud enough cycle has another note.  What
becomes of the events has no influence on it.
-/

namespace PitchFollower.Midi

/-- The state between two cycles. -/
structure Emitter where
  quantizer : Quantizer
  settings : EmitterSettings
  window : LoudnessWindow
  gate : NoteGate
  /-- The display that is kept up to date, if there is one. -/
  monitor : Option Monitor
  /-- The note of the last cycle before transposition. -/
  detected : Option UInt8

namespace Emitter

/-- An emitter before the first cycle.  The settings are checked first. -/
def ofSettings (quantizer : Quantizer) (settings : EmitterSettings) :
    Except Fault Emitter := do
  if let some fault := settings.fault? then throw fault
  let window ← LoudnessWindow.ofOptions settings.windowSize.toNat
    settings.divisor
  return {
    quantizer
    settings
    window
    gate := .silent settings.gateThreshold
    monitor := none
    detected := none }

/-- An emitter for the range of a whistle with the standard settings. -/
def standard (sampleRate : Float32) : Except Fault Emitter := do
  ofSettings (← Quantizer.ofRate sampleRate .whistle) .standard

/-- The emitter with a blank display. -/
def withMonitor (e : Emitter) : Emitter :=
  { e with monitor := some .blank }

/-- The note that is sent for a note of the scale, if it is a MIDI note. -/
def transposed? (e : Emitter) (note : UInt8) : Option UInt8 :=
  let moved : Int := note.toNat + e.settings.transpose.toInt
  if 0 ≤ moved ∧ moved ≤ 127 then some moved.toNat.toUInt8 else none

/-- The velocity of a note that starts at a loudness.  A note with velocity
zero would be taken for the end of a note. -/
def velocityAt (e : Emitter) (loudness : UInt8) : UInt8 :=
  match e.settings.velocity with
  | .fixed velocity => velocity
  | .loudness => max loudness 1

/-- The events that the gate asks for, in the order they are sent. -/
def messages (e : Emitter) (velocity : UInt8) (asked : GateEvents) :
    List Event :=
  let channel := e.settings.channel
  [asked.expression.map (.controlChange channel e.settings.controller),
    asked.noteOff.map (.noteOff channel · 0),
    asked.noteOn.map (.noteOn channel · velocity)].filterMap id

/-- The emitter after its display, if it has one, has been updated. -/
def publish (e : Emitter) (note : Option UInt8) (loudness : UInt8) : Emitter :=
  { e with monitor := e.monitor.map fun _ => .showing note loudness }

/-- Takes a closed cycle, and lists the events to be sent. -/
def onCycle (e : Emitter) (cycle : Cycle) : Emitter × List Event :=
  let detected := e.quantizer.note? cycle.period
  let window := e.window.update cycle.energy
  let (gate, asked) :=
    e.gate.onCycle (detected.bind e.transposed?) window.loudness
  let heard := { e with detected, window, gate }
  (heard.publish gate.sounding window.loudness,
    e.messages (e.velocityAt window.loudness) asked)

/-- Ends the sounding note, if there is one. -/
def release (e : Emitter) : Emitter × List Event :=
  let (gate, ended) := e.gate.release
  let released := { e with gate }
  (released.publish none e.window.loudness,
    (ended.map (Event.noteOff e.settings.channel · 0)).toList)

/-- An emitter answers each sample with the events to be sent. -/
instance : Player Emitter (List Event) where
  play e _ cycle :=
    match cycle with
    | some cycle => e.onCycle cycle
    | none => (e, [])

end Emitter

end PitchFollower.Midi
