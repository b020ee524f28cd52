/-!
# Single precision numbers

Every quantity of a signal is a `Float32`.  Only operations of core that have a
model in the logic are used: arithmetic, comparison, absolute value, bit
patterns and the conversions from and to unsigned words.  This module adds the
few operations the library needs beside them: silencing what is not finite, a
maximum and a minimum that overlook a NaN, and conversions from and to signed
integers.
-/

namespace PitchFollower.Single

/-- The number itself if it is finite and zero otherwise. -/
def finiteOrZero (x : Float32) : Float32 :=
  if x.isFinite then x else 0

/-- A usable quantity: finite and greater than zero. -/
def IsPositive (x : Float32) : Prop :=
  x.isFinite = true ∧ 0 < x

instance (x : Float32) : Decidable (IsPositive x) :=
  inferInstanceAs (Decidable (_ ∧ _))

/-- The larger of two numbers.  A NaN gives way to the other operand. -/
def larger (x y : Float32) : Float32 :=
  if x.isNaN then y else if x < y then y else x

/-- The smaller of two numbers.  A NaN gives way to the other operand. -/
def smaller (x y : Float32) : Float32 :=
  if x.isNaN then y else if y < x then y else x

/-- The sign of `x` on the magnitude of `magnitude`, which is not negative. -/
def withSignOf (x magnitude : Float32) : Float32 :=
  .ofBits (magnitude.toBits ||| (x.toBits &&& 0x80000000))

/-- The number without its fraction, cut off at `2 ^ 64 - 1` on both sides.
The whole part of a NaN is zero. -/
def wholePart (x : Float32) : Int :=
  if x < 0 then -((-x).toUInt64.toNat : Int) else x.toUInt64.toNat

/-- The whole part brought into `low..=high`. -/
def wholePartWithin (low high : Int) (x : Float32) : Int :=
  max low (min high (wholePart x))

/-- The whole part as a signed word of 16 bits. -/
def wholePart16 (x : Float32) : Int :=
  wholePartWithin (-32768) 32767 x

/-- The whole part as a signed word of 32 bits. -/
def wholePart32 (x : Float32) : Int :=
  wholePartWithin (-2147483648) 2147483647 x

/-- The whole part as a signed word of 64 bits. -/
def wholePart64 (x : Float32) : Int :=
  wholePartWithin (-9223372036854775808) 9223372036854775807 x

/-- The nearest number to a natural number below `2 ^ 64`. -/
def ofNat (n : Nat) : Float32 :=
  n.toUInt64.toFloat32

/-- The nearest number to an integer of magnitude below `2 ^ 64`. -/
def ofInt (n : Int) : Float32 :=
  if n < 0 then -(ofNat n.natAbs) else ofNat n.natAbs

/-- The sum of a list from the left.  It starts at negative zero, the neutral
element of addition. -/
def sum (xs : Array Float32) : Float32 :=
  xs.foldl (· + ·) (-0)

end PitchFollower.Single
