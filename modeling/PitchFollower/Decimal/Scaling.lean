import PitchFollower.Decimal.Numeral

/-!
# Numbers scaled in double precision

A quick way from a numeral to a single precision number.  An integer that fits
into 64 bits is rounded once.  Of any other numeral only the leading digits
count: they are gathered in a word of 64 bits for as long as they fit, and the
word is multiplied or divided by a power of ten in double precision.  Each of
these steps rounds, so the result may be a neighbour of the nearest number where
the numeral lies close to the middle between the two.  A numeral whose scaled
value is infinite in double precision is out of range.
-/

namespace PitchFollower

namespace Decimal

/-- A natural number with one more digit, if 64 bits hold it. -/
def appendDigit? (n : Nat) (digit : Char) : Option Nat :=
  let longer := 10 * n + digitValue digit
  if longer ≤ 18446744073709551615 then some longer else none

/-- A natural number with more digits, up to the first one for which 64 bits do
not suffice, and the digits from there on. -/
def appendDigits (n : Nat) : List Char → Nat × List Char
  | [] => (n, [])
  | digit :: digits =>
    match appendDigit? n digit with
    | some longer => appendDigits longer digits
    | none => (n, digit :: digits)

theorem appendDigits_cons {n longer : Nat} {digit : Char} (digits : List Char)
    (h : appendDigit? n digit = some longer) :
    appendDigits n (digit :: digits) = appendDigits longer digits := by
  change (match appendDigit? n digit with
    | some longer => appendDigits longer digits
    | none => (n, digit :: digits)) = _
  rw [h]

theorem appendDigits_of_none {n : Nat} {digit : Char} (digits : List Char)
    (h : appendDigit? n digit = none) :
    appendDigits n (digit :: digits) = (n, digit :: digits) := by
  change (match appendDigit? n digit with
    | some longer => appendDigits longer digits
    | none => (n, digit :: digits)) = _
  rw [h]

/-- The leading digits of a written number.  A digit before the point that is
left out moves the point; the digits behind the point are then tried anew. -/
def leading (whole fraction : List Char) (exponent : Int) : Decimal :=
  let (n, leftOut) := appendDigits 0 whole
  let (n, ignored) := appendDigits n fraction
  ⟨n, exponent + leftOut.length - (fraction.length - ignored.length : Nat)⟩

/-- The largest exponent of a power of ten in double precision. -/
def maxPower : Nat := 308

/-- The double precision number nearest to a power of ten. -/
def powerOfTen (k : Nat) : Float :=
  .ofScientific 1 false k

/-- A magnitude times a power of ten, if that is finite.  For exponents below
the range of the powers there are two divisions, and twice below it nothing is
left of a word of 64 bits. -/
def scale? (x : Float) (exponent : Int) : Option Float :=
  if maxPower < exponent then
    if x == 0 then some x else none
  else if 0 ≤ exponent then
    let y := x * powerOfTen exponent.toNat
    if y.isInf then none else some y
  else if -maxPower ≤ exponent then
    some (x / powerOfTen exponent.natAbs)
  else if -(2 * maxPower) ≤ exponent then
    some (x / powerOfTen maxPower / powerOfTen (exponent.natAbs - maxPower))
  else some 0

/-- A decimal with a significand of 64 bits, scaled in double precision. -/
def scaled? (d : Decimal) : Option Float :=
  scale? d.significand.toUInt64.toFloat d.exponent

end Decimal

namespace Numeral

/-- The integer that a numeral writes, if 64 bits hold it: with a sign if it is
negative, and without one otherwise. -/
def word? (n : Numeral) : Option Int :=
  n.toInt?.filter fun i => -9223372036854775808 ≤ i ∧ i ≤ 18446744073709551615

/-- The leading digits of a numeral, without its sign. -/
def leading (n : Numeral) : Decimal :=
  .leading n.whole n.fraction (n.exponent.getD 0)

/-- The single precision number that a numeral stands for, unless it is out of
range. -/
def scaledSingle? (n : Numeral) : Option Float32 :=
  match n.word? with
  | some i =>
    some (Decimal.signed (i < 0) (Decimal.nearest .binary32 ⟨i.natAbs, 0⟩))
  | none =>
    n.leading.scaled?.map fun x =>
      Decimal.signed n.negative (Decimal.narrow x.toModel.unpack)

end Numeral

end PitchFollower
