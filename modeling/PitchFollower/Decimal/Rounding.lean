import PitchFollower.Decimal.Basic

/-!
# From decimals to binary numbers

The nearest binary number to a decimal in single and in double precision, and
from double to single precision, with ties to the even mantissa.  Decimals
far outside the range of the format are settled by the position of their point
alone, so that no huge power of ten is ever computed.
-/

namespace PitchFollower.Decimal

open Float.Model (Format UnpackedFloat)

/-- The binary number of a format nearest to a decimal.  All decimals from
`10 ^ 400` on are infinite in the formats used here, and all below `10 ^ -400`
are zero. -/
def nearest (spec : Format) (d : Decimal) : UnpackedFloat :=
  if d.significand = 0 then .zero .positive
  else if 400 < d.position then .infinity .positive
  else if d.position < -400 then .zero .positive
  else .ofScientific spec d.significand d.exponent

/-- The single precision number of the given sign with the given magnitude. -/
def signed (negative : Bool) (magnitude : UnpackedFloat) : Float32 :=
  let x := Float32.ofModel (Float32.Model.pack magnitude)
  if negative then -x else x

/-- The single precision number nearest to a decimal. -/
def toSingle (d : Decimal) : Float32 :=
  signed false (d.nearest .binary32)

/-- The magnitude of a double precision number rounded to single precision. -/
def narrow : UnpackedFloat → UnpackedFloat
  | .finite _ m e _ => .round .binary32 .positive m e
  | .zero _ => .zero .positive
  | .infinity _ => .infinity .positive
  | .notANumber => .notANumber

/-- The double precision magnitude as it is stored: what exceeds the largest
double is infinite. -/
def nearestDouble (d : Decimal) : UnpackedFloat :=
  .unpack .binary64 (UnpackedFloat.pack .binary64 (d.nearest .binary64))

end PitchFollower.Decimal
