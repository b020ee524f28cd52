import PitchFollower.Decimal.Rounding

/-!
# Numerals

A numeral is a number as somebody wrote it: a sign, digits on both sides of the
point, and an exponent.  Nothing is lost by reading one, so that each use of a
numeral can decide for itself what number it stands for.  This module also
reads the numerals of a command line, which may lack digits on one side of the
point, may have a plus sign, and may be one of the words for the values that
are not finite.
-/

namespace PitchFollower

/-- A written number. -/
structure Numeral where
  negative : Bool
  /-- The digits before the point. -/
  whole : List Char
  /-- The digits behind the point.  Without any there is no point. -/
  fraction : List Char
  exponent : Option Int
deriving DecidableEq, Repr, Inhabited

namespace Numeral

/-- The decimal written by digits before the point, digits behind it and an
exponent. -/
def decimalOf (whole fraction : List Char) (exponent : Int) : Decimal :=
  ⟨Decimal.ofDigits (whole ++ fraction), exponent - fraction.length⟩

/-- The exact value of a numeral without its sign. -/
def magnitude (n : Numeral) : Decimal :=
  decimalOf n.whole n.fraction (n.exponent.getD 0)

/-- Written without a fraction and without an exponent. -/
def IsIntegral (n : Numeral) : Prop :=
  n.fraction = [] ∧ n.exponent = none

instance (n : Numeral) : Decidable n.IsIntegral :=
  inferInstanceAs (Decidable (_ ∧ _))

/-- The integer that a numeral writes.  Minus zero does not write an integer. -/
def toInt? (n : Numeral) : Option Int :=
  let m := Decimal.ofDigits n.whole
  if n.IsIntegral then
    if n.negative then
      if m = 0 then none else some (-(m : Int))
    else some m
  else none

/-- The numeral of an integer. -/
def ofInt (i : Int) : Numeral where
  negative := i < 0
  whole := Decimal.digits i.natAbs
  fraction := []
  exponent := none

/-- The single precision number nearest to the double precision number nearest
to a numeral. -/
def toSingle (n : Numeral) : Float32 :=
  Decimal.signed n.negative (Decimal.narrow n.magnitude.nearestDouble)

/-- The exponent behind its mark, always with a sign. -/
def exponentText (e : Int) : List Char :=
  'e' :: (if e < 0 then '-' else '+') :: Decimal.digits e.natAbs

/-- The characters of a numeral. -/
def text (n : Numeral) : List Char :=
  (if n.negative then ['-'] else []) ++ n.whole ++
    (if n.fraction = [] then [] else '.' :: n.fraction) ++
    (match n.exponent with
      | none => []
      | some e => exponentText e)

/-- The digits at the start of a text, and the rest. -/
def spanDigits (cs : List Char) : List Char × List Char :=
  cs.span Char.isDigit

/-- A sign, if there is one, and the rest. -/
def takeSign : List Char → Bool × List Char
  | '-' :: cs => (true, cs)
  | '+' :: cs => (false, cs)
  | cs => (false, cs)

/-- The exponent behind its mark: a sign or none and at least one digit. -/
def exponentValue? (cs : List Char) : Option (Int × List Char) :=
  let (negative, cs) := takeSign cs
  match spanDigits cs with
  | ([], _) => none
  | (ds, rest) =>
    let n : Int := Decimal.ofDigits ds
    some (if negative then -n else n, rest)

/-- A whole text read as digits with an optional point, digits on at least one
side of it, and an optional exponent. -/
def looseDecimal? (cs : List Char) : Option Decimal :=
  let (whole, rest) := spanDigits cs
  let (fraction, rest) :=
    match rest with
    | '.' :: rest => spanDigits rest
    | _ => ([], rest)
  if whole.isEmpty && fraction.isEmpty then none
  else
    match rest with
    | [] => some (decimalOf whole fraction 0)
    | c :: rest =>
      if c = 'e' ∨ c = 'E' then
        match exponentValue? rest with
        | some (e, []) => some (decimalOf whole fraction e)
        | _ => none
      else none

/-- A single precision number as it may be given on a command line.  The words
for infinity and NaN are read in any case of letters. -/
def readSingle? (text : String) : Option Float32 :=
  let (negative, cs) := takeSign text.toList
  let withSign (x : Float32) := if negative then -x else x
  let word := String.ofList (cs.map Char.toLower)
  if word = "inf" ∨ word = "infinity" then some (withSign (.ofBits 0x7f800000))
  else if word = "nan" then some (.ofBits 0x7fc00000)
  else (looseDecimal? cs).map fun d => withSign d.toSingle

end Numeral

end PitchFollower
