import PitchFollower.Wave.Bytes

/-!
# Sample formats

The format chunk of a wave file: how many channels there are, how fast the
samples follow each other, and how each of them is stored.  The chunk comes in
several versions of different lengths.
-/

namespace PitchFollower.Wave

/-- What the bytes of a sample stand for. -/
inductive Encoding where
  | integer
  | single
deriving DecidableEq, Repr

/-- How the samples of a file are stored. -/
structure Format where
  channels : Nat
  rate : Nat
  /-- The bytes that a sample takes up. -/
  width : Nat
  /-- The bits of a sample that count. -/
  bits : Nat
  encoding : Encoding
deriving DecidableEq, Repr

namespace Format

/-- The tag of a chunk that states one of the integer formats. -/
def integerTag : Nat := 1

/-- The tag of a chunk that states the single precision format. -/
def singleTag : Nat := 3

/-- The tag of a chunk that names its encoding at its end. -/
def extensibleTag : Nat := 0xfffe

/-- What follows the first two bytes in the name of an encoding. -/
def nameRest : List UInt8 :=
  [0x00, 0x00, 0x00, 0x00, 0x10, 0x00, 0x80, 0x00, 0x00, 0xaa, 0x00, 0x38,
    0x9b, 0x71]

/-- The encoding that a name of 16 bytes stands for. -/
def encodingNamed? (name : List UInt8) : Option Encoding :=
  if name.drop 2 = nameRest then
    if naturalOf (name.take 2) = integerTag then some .integer
    else if naturalOf (name.take 2) = singleTag then some .single
    else none
  else none

/-- The fields that all versions of the chunk begin with. -/
structure Head where
  tag : Nat
  channels : Nat
  rate : Nat
  bytesPerSecond : Nat
  /-- The bytes of one sample of every channel. -/
  frame : Nat
  bits : Nat

/-- Takes the fields that all versions begin with. -/
def Head.read : ByteReader Head :=
  return {
    tag := ← .natural 2
    channels := ← .natural 2
    rate := ← .natural 4
    bytesPerSecond := ← .natural 4
    frame := ← .natural 2
    bits := ← .natural 2 }

/-- The bytes that a sample takes up. -/
def Head.width (h : Head) : Nat :=
  h.frame / h.channels

/-- Fields that agree with each other.  The bits that a sample takes up have to
be a number of 16 bits themselves. -/
def Head.Consistent (h : Head) : Prop :=
  0 < h.channels ∧ 8 * h.width < 65536 ∧ h.bits ≤ 8 * h.width ∧
    h.bytesPerSecond = h.frame * h.rate ∧ h.bits % 8 = 0 ∧ 0 < h.bits

instance (h : Head) : Decidable h.Consistent :=
  inferInstanceAs (Decidable (_ ∧ _))

/-- The format with these fields. -/
def Head.format (h : Head) (encoding : Encoding) : Format :=
  { channels := h.channels, rate := h.rate, width := h.width, bits := h.bits,
    encoding }

/-- The rest of a chunk that states an integer format.  The longer versions are
not used for samples of more than 24 bits. -/
def readInteger (length : Nat) (h : Head) : ByteReader Format := do
  guard (length = 16 ∨ length = 18 ∨ length = 40)
  unless length = 16 do
    .skip 2
    guard (h.bits = 8 ∨ h.bits = 16 ∨ h.bits = 24)
  if length = 40 then .skip 22
  return h.format .integer

/-- The rest of a chunk that states the single precision format. -/
def readSingle (length : Nat) (h : Head) : ByteReader Format := do
  guard (length = 16 ∨ length = 18)
  if length = 18 then guard ((← .natural 2) = 0)
  guard (h.bits = 32)
  return h.format .single

/-- The rest of a chunk that names its encoding.  It may also correct how many
bits count. -/
def readExtensible (length : Nat) (h : Head) : ByteReader Format := do
  guard (40 ≤ length)
  guard ((← .natural 2) = 22)
  let bits ← .natural 2
  .skip 4
  let encoding ← encodingNamed? (← .take 16)
  return { h.format encoding with bits := if bits = 0 then h.bits else bits }

/-- Takes a format chunk of a stated length. -/
def read (length : Nat) : ByteReader Format := do
  guard (16 ≤ length)
  let h ← Head.read
  guard h.Consistent
  if h.tag = integerTag then readInteger length h
  else if h.tag = singleTag then readSingle length h
  else if h.tag = extensibleTag then readExtensible length h
  else failure

end Format

end PitchFollower.Wave
