import PitchFollower.Single.Basic
import PitchFollower.Wave.Format
import PitchFollower.Wave.Recording

/-!
# Reading wave files

A file is a list of chunks.  The last format chunk before the data says how the
samples are stored, and other chunks are passed over.  Samples are read as
numbers in `-1..=1`, and of several channels only the first one is kept.
-/

namespace PitchFollower.Wave

/-- Why a file could not be read. -/
inductive ReadError where
  /-- The chunks up to the data are not those of a wave file. -/
  | header
  /-- Samples of too many bits. -/
  | bitDepth (bits : Nat)
  /-- The data end before the last sample. -/
  | truncated
  /-- Samples of more bytes than are known. -/
  | wideSample
  /-- Samples in a format that is not known. -/
  | unknownSample
deriving DecidableEq, Repr

/-- The data of a file: their format, their stated length, and the bytes from
their start on. -/
structure Data where
  format : Format
  length : Nat
  bytes : List UInt8

/-- Walks through chunks up to the data.  Of the `fact` chunk only four bytes
are passed over, whatever its length, and no more than there are.  The budget
bounds the number of chunks. -/
def findData? : Nat → Option Format → List UInt8 → Option Data
  | 0, _, _ => none
  | budget + 1, format, bytes =>
    match ByteReader.take 4 bytes with
    | none => none
    | some (tag, bytes) =>
      match ByteReader.natural 4 bytes with
      | none => none
      | some (length, bytes) =>
        if tag = ascii "data" then format.map (⟨·, length, bytes⟩)
        else if tag = ascii "fmt " then
          match Format.read length bytes with
          | none => none
          | some (format, bytes) => findData? budget (some format) bytes
        else if tag = ascii "fact" then findData? budget format (bytes.drop 4)
        else
          match ByteReader.skip length bytes with
          | none => none
          | some ((), bytes) => findData? budget format bytes

/-- The data of a whole file, which have to consist of whole frames. -/
def data? (file : List UInt8) : Option Data := do
  let (riff, bytes) ← ByteReader.take 4 file
  guard (riff = ascii "RIFF")
  let ((), bytes) ← ByteReader.skip 4 bytes
  let (wave, bytes) ← ByteReader.take 4 bytes
  guard (wave = ascii "WAVE")
  let data ← findData? file.length none bytes
  guard (data.length % data.format.width = 0)
  guard (data.length / data.format.width % data.format.channels = 0)
  return data

namespace Format

/-- The value of the lowest bit of the integers of a number of bits. -/
def integerScale (bits : Nat) : Float32 :=
  1 / Single.ofNat (Nat.pow 2 (bits - 1))

/-- How the bytes of a sample are read, if they can be. -/
def decoder (f : Format) : Except ReadError (List UInt8 → Float32) :=
  let scaled (i : Int) : Float32 := Single.ofInt i * integerScale f.bits
  match f.encoding, f.width, f.bits with
  | .integer, 1, 8 => .ok fun bs => scaled (naturalOf bs - 128)
  | .integer, 2, 16 | .integer, 3, 24 | .integer, 4, 32 =>
    .ok fun bs => scaled (integerOf bs)
  | .integer, 4, 24 => .ok fun bs => scaled (integerOf (bs.take 3))
  | .single, 4, 32 => .ok fun bs => .ofBits (naturalOf bs).toUInt32
  | _, width, _ => .error (if 4 < width then .wideSample else .unknownSample)

end Format

/-- Reads `count` samples one after the other behind those already read. -/
def readSamples (width : Nat) (decode : List UInt8 → Float32) :
    Nat → Array Float32 → List UInt8 → Except ReadError (Array Float32)
  | 0, samples, _ => .ok samples
  | count + 1, samples, bytes =>
    match ByteReader.take width bytes with
    | none => .error .truncated
    | some (sample, bytes) =>
      readSamples width decode count (samples.push (decode sample)) bytes

/-- All samples of the data, frame by frame.  Data without samples are fine in
any format. -/
def Data.samples (d : Data) : Except ReadError (Array Float32) :=
  match d.length / d.format.width with
  | 0 => .ok #[]
  | count =>
    do readSamples d.format.width (← d.format.decoder) count #[] d.bytes

/-- The first sample of each whole frame. -/
def firstChannel (channels : Nat) (samples : Array Float32) : Array Float32 :=
  Array.ofFn fun frame : Fin (samples.size / channels) =>
    have bound : frame * channels < samples.size := by
      have positive : 0 < channels := Nat.pos_of_ne_zero fun none => by
        subst none
        simpa using frame.isLt
      calc frame * channels < samples.size / channels * channels :=
            Nat.mul_lt_mul_of_pos_right frame.isLt positive
        _ ≤ samples.size := Nat.div_mul_le_self _ _
    samples[frame * channels]

/-- Reads a file. -/
def read (file : List UInt8) : Except ReadError Recording := do
  let some data := data? file | throw .header
  let format := data.format
  if format.encoding = .integer ∧ 32 < format.bits then
    throw (.bitDepth format.bits)
  return ⟨format.rate.toUInt32, firstChannel format.channels (← data.samples)⟩

end PitchFollower.Wave
