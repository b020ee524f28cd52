import PitchFollower.Fault
import PitchFollower.Single.Basic
import PitchFollower.Wave.Format
import PitchFollower.Wave.Recording

/-!
# Writing wave files

A recording is written with one channel of 16 bit integers behind the shortest
header.  Samples beyond full scale are cut off.  The header states the bytes of
a frame as those of a second divided by the rate, so a rate of zero is refused.
-/

namespace PitchFollower.Wave

/-- The largest sample in a file. -/
def amplitude : Float32 := 32767

/-- A sample as an integer of 16 bits. -/
def quantize (sample : Float32) : Int :=
  Single.wholePart16 (Single.smaller (Single.larger sample (-1)) 1 * amplitude)

/-- The header in front of `length` bytes of data. -/
def header (rate : UInt32) (length : Nat) : List UInt8 :=
  ascii "RIFF" ++ littleEndian 4 (36 + length) ++ ascii "WAVE" ++
    ascii "fmt " ++ littleEndian 4 16 ++ littleEndian 2 Format.integerTag ++
    littleEndian 2 1 ++ littleEndian 4 rate.toNat ++
    littleEndian 4 (2 * rate.toNat) ++
    littleEndian 2 2 ++ littleEndian 2 16 ++ ascii "data" ++
    littleEndian 4 length

/-- The bytes of a recording with a rate. -/
def encode (recording : Recording) : List UInt8 :=
  let data := recording.samples.toList.flatMap fun sample =>
    twosComplement 2 (quantize sample)
  header recording.rate data.length ++ data

/-- The file of a recording, if it has a rate. -/
def write (recording : Recording) : Except Fault (List UInt8) :=
  if recording.rate = 0 then .error .zeroRate else .ok (encode recording)

end PitchFollower.Wave
