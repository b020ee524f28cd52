/-!
# Decimals

A decimal is a whole number of units of a power of ten.  The digits of its
significand and the position of its point are what every written form of a
number is made of.
-/

namespace PitchFollower

/-- The number `significand * 10 ^ exponent`. -/
structure Decimal where
  significand : Nat
  exponent : Int
deriving DecidableEq, Repr, Inhabited

namespace Decimal

/-- The decimal digits of a natural number, the most significant one first. -/
def digits (n : Nat) : List Char :=
  Nat.toDigits 10 n

/-- How many decimal digits a natural number has. -/
def digitCount (n : Nat) : Nat :=
  (digits n).length

/-- Where the point stands, counted from the left of the digits: a positive
decimal lies below `10 ^ position` and not below a tenth of it. -/
def position (d : Decimal) : Int :=
  digitCount d.significand + d.exponent

/-- The value of a digit. -/
def digitValue (c : Char) : Nat :=
  c.toNat - '0'.toNat

/-- The natural number that a list of digits writes. -/
def ofDigits (ds : List Char) : Nat :=
  ds.foldl (fun n c => 10 * n + digitValue c) 0

/-- Text padded with blanks on the left up to a width. -/
def padLeft (width : Nat) (text : String) : String :=
  String.ofList (List.replicate (width - text.length) ' ') ++ text

end Decimal

end PitchFollower
