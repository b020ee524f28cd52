import PitchFollower.Decimal.Numeral
import PitchFollower.Decimal.Shortest

/-!
# Written forms of a number

A layout says how the digits of a decimal are set: from where to where the
point is written among the digits and where an exponent takes over, and whether
a number without a fraction keeps its point.  Two layouts are in use, one for
messages and one for stored settings.
-/

namespace PitchFollower.Decimal

/-- The decisions that tell one written form of a number from another. -/
structure Layout where
  /-- Positions of the point for which the digits are written out in full. -/
  positional : Int → Bool
  /-- Whether a number without a fraction ends in `.0`. -/
  keepsPoint : Bool
  /-- Which of two equally near shortest decimals is written. -/
  tie : TieBreak

/-- Numbers in messages: never an exponent, no point without a fraction. -/
def Layout.message : Layout where
  positional _ := true
  keepsPoint := false
  tie := .up

/-- Numbers in stored settings: a point always, unless an exponent is
written.  The exponent takes over from `10 ^ 13` on and below `10 ^ -6`. -/
def Layout.stored : Layout where
  positional p := decide (-5 ≤ p ∧ p ≤ 13)
  keepsPoint := true
  tie := .toEven

/-- A row of zeros. -/
private def zeros (n : Nat) : List Char :=
  List.replicate n '0'

/-- The digits of a decimal with the point among them. -/
def setPositional (keepsPoint : Bool) (d : Decimal) : Numeral :=
  let ds := digits d.significand
  let p := d.position
  if 0 ≤ d.exponent then
    ⟨false, ds ++ zeros d.exponent.toNat,
      if keepsPoint then ['0'] else [], none⟩
  else if 0 < p then
    ⟨false, ds.take p.toNat, ds.drop p.toNat, none⟩
  else
    ⟨false, ['0'], zeros (-p).toNat ++ ds, none⟩

/-- One digit, the others behind the point, and the exponent. -/
def setScientific (d : Decimal) : Numeral :=
  let ds := digits d.significand
  ⟨false, ds.take 1, ds.drop 1, some (d.position - 1)⟩

/-- The numeral of a decimal in a layout. -/
def set (layout : Layout) (d : Decimal) : Numeral :=
  if layout.positional d.position then setPositional layout.keepsPoint d
  else setScientific d

/-- The numeral of a finite single precision number in a layout. -/
def setSingle (layout : Layout) (x : Float32) : Numeral :=
  { set layout (if x == 0 then ⟨0, 0⟩ else shortest layout.tie x) with
    negative := x.toBits &&& 0x80000000 ≠ 0 }

/-- A number as it appears in a message. -/
def inMessage (x : Float32) : String :=
  if x.isNaN then "NaN"
  else if x.isInf then if x < 0 then "-inf" else "inf"
  else String.ofList (setSingle .message x).text

end PitchFollower.Decimal
