/-!
# Bytes in files

Numbers are stored with their least significant byte first, signed ones in two's
complement.  A byte reader takes what it needs from the front of a list of bytes
and fails if there is not enough.
-/

namespace PitchFollower.Wave

/-- The lowest `width` bytes of a natural number. -/
def littleEndian (width n : Nat) : List UInt8 :=
  match width with
  | 0 => []
  | width + 1 => n.toUInt8 :: littleEndian width (n / 256)

/-- The natural number that bytes store. -/
def naturalOf : List UInt8 → Nat
  | [] => 0
  | b :: bs => b.toNat + 256 * naturalOf bs

/-- The integer that bytes store in two's complement. -/
def integerOf (bs : List UInt8) : Int :=
  Int.bmod (naturalOf bs) (Nat.pow 256 bs.length)

/-- The two's complement of an integer. -/
def twosComplement (width : Nat) (i : Int) : List UInt8 :=
  littleEndian width (i % (Nat.pow 256 width : Nat)).toNat

/-- The bytes of a text without characters beyond ASCII. -/
def ascii (text : String) : List UInt8 :=
  text.toList.map fun c => c.toNat.toUInt8

/-- Takes something off the front of a list of bytes, if it can. -/
abbrev ByteReader :=
  StateT (List UInt8) Option

namespace ByteReader

/-- The next `count` bytes. -/
def take (count : Nat) : ByteReader (List UInt8) := fun bs =>
  let taken := bs.take count
  if taken.length = count then some (taken, bs.drop count) else none

/-- Passes over `count` bytes. -/
def skip (count : Nat) : ByteReader Unit :=
  discard (take count)

/-- The natural number in the next `width` bytes. -/
def natural (width : Nat) : ByteReader Nat :=
  naturalOf <$> take width

end ByteReader

end PitchFollower.Wave
