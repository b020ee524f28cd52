import PitchFollower.Single.Approximation

/-!
# Equal temperament

Frequencies in Hz and MIDI note numbers, twelve to the octave with A4 = 440 Hz
as number 69.  Note numbers between two notes are fractional.
-/

namespace PitchFollower.Tuning

open Single

/-- The note number of a frequency. -/
def noteNumberOf (frequency : Float32) : Float32 :=
  12 * Approximate.log2 frequency - 36.376316562295926

/-- The frequency of a note number. -/
def frequencyOf (noteNumber : Float32) : Float32 :=
  440 * Approximate.exp2 ((noteNumber - 69) / 12)

/-- How far a frequency lies from the nearest note, in hundredths of a
semitone. -/
def centsFromNearestNote (frequency : Float32) : Float32 :=
  let noteNumber := noteNumberOf frequency
  100 * (noteNumber - Approximate.round noteNumber)

end PitchFollower.Tuning
