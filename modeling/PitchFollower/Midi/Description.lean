import PitchFollower.Decimal.Basic
import PitchFollower.Midi.Event

/-!
# Describing events

One line for people per event, in columns.  Channels are counted from one.
-/

namespace PitchFollower.Midi

/-- The names of the twelve notes of an octave, from C upwards. -/
def pitchClass : Fin 12 → String
  | 0 => "C" | 1 => "C#" | 2 => "D" | 3 => "D#" | 4 => "E" | 5 => "F"
  | 6 => "F#" | 7 => "G" | 8 => "G#" | 9 => "A" | 10 => "A#" | 11 => "B"

/-- The name of a note with its octave.  Middle C, number 60, is C4. -/
def noteName (note : UInt8) : String :=
  let octave : Int := (note.toNat / 12 : Nat) - 1
  pitchClass (Fin.ofNat 12 note.toNat) ++ toString octave

/-- A byte in a column of three. -/
def byteColumn (b : UInt8) : String :=
  Decimal.padLeft 3 (toString b.toNat)

/-- The name and the number of a note in columns. -/
def noteColumns (note : UInt8) : String :=
  Decimal.padLeft 4 (noteName note) ++ " (" ++ byteColumn note ++ ")"

/-- The channel at the end of a description. -/
def channelColumn (channel : UInt8) : String :=
  ", channel " ++ toString (channel.toNat + 1)

/-- One line about an event. -/
def Event.describe : Event → String
  | .noteOn channel note velocity =>
    "note on  " ++ noteColumns note ++ " velocity " ++ byteColumn velocity ++
      channelColumn channel
  | .noteOff channel note _ =>
    "note off " ++ noteColumns note ++ channelColumn channel
  | .controlChange channel controller value =>
    "cc " ++ byteColumn controller ++ " = " ++ byteColumn value ++
      channelColumn channel

end PitchFollower.Midi
