import PitchFollower.Single.Basic

/-!
# Approximate elementary functions

Fast single precision approximations of rounding, sine, logarithm and
exponential.  They are defined on every bit pattern, and every step rounds to
single precision in the order written here, so their results are exact bit
patterns and not merely close to the functions they stand for.
-/

namespace PitchFollower.Single.Approximate

/-- The largest integer not above `x`, for `x` within the range of a signed
word of 32 bits.  Beyond it the result stays at the end of that range, so it is
finite for every `x`. -/
def floor (x : Float32) : Float32 :=
  let whole := ofInt (wholePart32 x)
  if x < whole then whole - 1 else whole

/-- The nearest integer, found by moving half a unit away from zero and
dropping the fraction. -/
def round (x : Float32) : Float32 :=
  ofInt (wholePart32 (x + withSignOf x 0.5))

/-- The circle constant. -/
def pi : Float32 := 3.14159265358979323846264338327950288

/-- The reciprocal of the circle constant. -/
def reciprocalPi : Float32 := 0.318309886183790671537767526745028724

/-- The natural logarithm of two. -/
def ln2 : Float32 := 0.693147180559945309417232121458176568

/-- The logarithm to base two of Euler's number. -/
def log2e : Float32 := 1.44269504088896340735992468100189214

/-- Euler's number. -/
def euler : Float32 := 2.71828182845904523536028747135266250

/-- The distance from one to the next larger number. -/
def epsilon : Float32 := .ofBits 0x34000000

/-- Cosine of an angle in radians, as a parabola over half turns with one
correction step. -/
def cos (x : Float32) : Float32 :=
  let x := x * (reciprocalPi / 2)
  let x := x - (0.25 + floor (x + 0.25))
  let x := x * (16 * (x.abs - 0.5))
  x + 0.225 * x * (x.abs - 1)

/-- Sine of an angle in radians. -/
def sin (x : Float32) : Float32 :=
  cos (x - pi / 2)

/-- The bits of a pattern that hold the mantissa. -/
def mantissaMask : UInt32 := 0x007fffff

/-- The bits of a pattern that hold the exponent. -/
def exponentMask : UInt32 := 0x7f800000

/-- The exponent stored in a bit pattern, with its bias. -/
def biasedExponent (x : Float32) : UInt32 :=
  (x.toBits &&& exponentMask) >>> 23

/-- The exponent stored in a bit pattern, without its bias. -/
def exponent (x : Float32) : Int :=
  (biasedExponent x).toNat - 127

/-- Natural logarithm of a positive number.  Numbers below one go through the
number whose bit pattern and theirs add up to twice the pattern of one. -/
def ln (x : Float32) : Float32 :=
  if (x - 1).abs < epsilon then 0
  else
    let w := if x < 1 then .ofBits (0x7f000000 - x.toBits) else x
    let e := (biasedExponent w - 127).toFloat32
    let d := .ofBits (w.toBits &&& exponentMask)
    let w := w / d
    let p :=
      -1.7417939 +
        (2.8212026 + (-1.4699568 + (0.44717955 - 0.056570851 * w) * w) * w) * w
    let r := e * ln2 + p
    if x < 1 then -r else r

/-- Logarithm to base two. -/
def log2 (x : Float32) : Float32 :=
  ln x * log2e

/-- The bits of the fraction of `x`, moved up to where a mantissa stands, for a
number with exponent `e`.  The distance moved counts modulo 32. -/
def fractionBits (x : Float32) (e : Int) : UInt32 :=
  (x.toBits <<< e.toNat.toUInt32) &&& mantissaMask

/-- The number without its fraction, with the sign of `x`. -/
def trunc (x : Float32) : Float32 :=
  let e := exponent x
  if e < 0 then withSignOf x 0
  else .ofBits (x.toBits &&& ~~~(fractionBits x e >>> e.toNat.toUInt32))

/-- The fraction of a number below `2 ^ 23` in magnitude, with the sign of
`x`. -/
def fract (x : Float32) : Float32 :=
  let e := exponent x
  if e < 0 then x
  else
    let bits := fractionBits x e
    if bits = 0 then withSignOf x 0
    else
      let shift := 23 - bits.toNat.log2
      let mantissa := (bits <<< shift.toUInt32) &&& mantissaMask
      withSignOf x (.ofBits (mantissa ||| ((127 - shift).toUInt32 <<< 23)))

/-- The power series of the exponential up to the fourth power, for small
arguments. -/
def expOfSmall (x : Float32) : Float32 :=
  [4, 3, 2, 1].foldl (fun y i => 1 + x / ofNat i * y) 1

/-- Exponential function: the series on the fraction of the exponent to base
two, then the whole part added to the exponent bits. -/
def exp (x : Float32) : Float32 :=
  if x == 0 then 1
  else if (x - 1).abs < epsilon then euler
  else if (x + 1).abs < epsilon then 1 / euler
  else
    let t := x * log2e
    let y := expOfSmall (fract t * ln2)
    let k :=
      min 2147483647 (max (-2147483648) (exponent y + wholePart32 (trunc t)))
    if k < -127 then 0
    else if 128 < k then .ofBits 0x7f800000
    else .ofBits
      ((y.toBits &&& ~~~exponentMask) ||| ((k + 127).toNat.toUInt32 <<< 23))

/-- Two to the power `x`. -/
def exp2 (x : Float32) : Float32 :=
  exp (x * ln 2)

end PitchFollower.Single.Approximate
