import PitchFollower.Midi.Event
import PitchFollower.Midi.LoudnessWindow
import PitchFollower.Midi.NoteGate

/-!
# Settings of an emitter

How cycles become MIDI events, and which settings are accepted.
-/

namespace PitchFollower.Midi

/-- How the velocities of notes are chosen. -/
inductive Velocity where
  /-- All notes have the same velocity. -/
  | fixed (velocity : UInt8)
  /-- The loudness of the cycle that starts the note. -/
  | loudness
deriving DecidableEq, Repr, Inhabited

/-- The settings of an emitter. -/
structure EmitterSettings where
  channel : UInt8
  /-- Semitones added to the notes of the scale. -/
  transpose : Int8
  velocity : Velocity
  /-- The least loudness of a cycle that starts a note. -/
  gateThreshold : UInt8
  /-- The number of cycles that the loudness is averaged over. -/
  windowSize : UInt64
  /-- The mean energy that stands for the full loudness. -/
  divisor : Float32
  /-- The controller that is told the loudness. -/
  controller : UInt8

namespace EmitterSettings

/-- The velocity of all notes unless asked otherwise. -/
def defaultVelocity : UInt8 := 100

/-- Two octaves down, from the range of a whistle into that of most
instruments. -/
def defaultTranspose : Int8 := -24

/-- The settings that are used unless asked otherwise. -/
def standard : EmitterSettings where
  channel := 0
  transpose := defaultTranspose
  velocity := .fixed defaultVelocity
  gateThreshold := NoteGate.defaultThreshold
  windowSize := LoudnessWindow.defaultSize.toUInt64
  divisor := LoudnessWindow.defaultDivisor
  controller := expressionController

instance : Inhabited EmitterSettings :=
  ⟨standard⟩

/-- The first thing that is wrong with the settings, if anything is. -/
def fault? (s : EmitterSettings) : Option Fault :=
  if 15 < s.channel then some (.channel s.channel)
  else if 127 < s.controller then some (.dataByte s.controller)
  else if 127 < s.gateThreshold then some (.dataByte s.gateThreshold)
  else
    match s.velocity with
    | .fixed v =>
      if v = 0 ∨ 127 < v then some (.velocity v) else windowFault? s
    | .loudness => windowFault? s
where
  /-- What is wrong with the settings of the loudness window. -/
  windowFault? (s : EmitterSettings) : Option Fault :=
    if s.windowSize = 0 then some .emptyWindow
    else if Single.IsPositive s.divisor then none
    else some (.loudnessDivisor s.divisor)

end EmitterSettings

end PitchFollower.Midi
