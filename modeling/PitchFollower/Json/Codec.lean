import PitchFollower.Decimal.Scaling
import PitchFollower.Json.Reader
import PitchFollower.Json.Writer

/-!
# Values of a type as JSON

A codec says which JSON values stand for the values of a type and which one is
written for each.  Integers have to be written as integers, and single precision
numbers must not be out of range.
-/

namespace PitchFollower.Json

/-- How values of a type are read from JSON and written to it. -/
structure Codec (α : Type) where
  read? : Json → Option α
  write : α → Json

namespace Codec

/-- Integers in a range, by their conversions from and to all integers. -/
def integer {α : Type} (low high : Int) (ofInt : Int → α) (toInt : α → Int) :
    Codec α where
  read?
    | .number n =>
      match n.toInt? with
      | some i => if low ≤ i ∧ i ≤ high then some (ofInt i) else none
      | none => none
    | _ => none
  write a := Json.ofInt (toInt a)

/-- Unsigned bytes. -/
def byte : Codec UInt8 :=
  integer 0 255 (fun i => i.toNat.toUInt8) (fun b => b.toNat)

/-- Signed bytes. -/
def signedByte : Codec Int8 :=
  integer (-128) 127 Int8.ofInt Int8.toInt

/-- Unsigned words of 64 bits. -/
def word : Codec UInt64 :=
  integer 0 18446744073709551615 (fun i => i.toNat.toUInt64) (fun w => w.toNat)

/-- Single precision numbers. -/
def single : Codec Float32 where
  read?
    | .number n => n.scaledSingle?
    | _ => none
  write := ofSingle

/-- What may be missing is `null` when it is. -/
def option {α : Type} (codec : Codec α) : Codec (Option α) where
  read?
    | .null => some none
    | json => (codec.read? json).map some
  write
    | none => .null
    | some a => codec.write a

/-- The value that a whole text writes, if the text is well formed. -/
def ofText? {α : Type} (codec : Codec α) (text : String) : Option α :=
  (Json.read? text).bind codec.read?

/-- The compact text of a value. -/
def toText {α : Type} (codec : Codec α) (value : α) : String :=
  String.ofList (Json.write (codec.write value))

end Codec

end PitchFollower.Json
