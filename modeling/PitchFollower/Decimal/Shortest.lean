import PitchFollower.Decimal.Rounding

/-!
# The shortest decimal of a number

Of all decimals that read back as a given positive number, the ones with the
fewest digits lie on the coarsest grid of multiples of a power of ten that has
such a point, and one of them is a neighbour of the number on that grid.  So it
is enough to walk through the grids from the coarsest to the finest and to test
two neighbours on each.  The finest grid holds every single precision number
exactly, so the walk always ends with a hit.
-/

namespace PitchFollower.Decimal

/-- Which of two equally near neighbours is taken. -/
inductive TieBreak where
  /-- The one with the even last digit. -/
  | toEven
  /-- The larger one. -/
  | up
deriving DecidableEq, Repr

/-- A positive quantity `mantissa * 2 ^ exponent`. -/
structure Dyadic where
  mantissa : Nat
  exponent : Int
deriving DecidableEq, Repr

/-- The magnitude of a finite number, read off its bits. -/
def Dyadic.ofSingle (x : Float32) : Dyadic :=
  let bits := x.toBits.toNat
  let stored : Nat := bits / Nat.pow 2 23 % 256
  ⟨bits % Nat.pow 2 23 + (if stored = 0 then 0 else Nat.pow 2 23),
    max stored 1 - 150⟩

/-- The quantity in units of `10 ^ k`, as a fraction. -/
def Dyadic.inUnits (v : Dyadic) (k : Int) : Nat × Nat :=
  (v.mantissa * Nat.pow 2 v.exponent.toNat * Nat.pow 10 (-k).toNat,
    Nat.pow 2 (-v.exponent).toNat * Nat.pow 10 k.toNat)

/-- The better of the two neighbours of `num / den` on the grid of the
integers, among those that pass a test. -/
def betterNeighbour (tie : TieBreak) (num den : Nat) (passes : Nat → Bool) :
    Option Nat :=
  let below := num / den
  let above := below + 1
  let nearer :=
    match compare (2 * (num % den)) den with
    | .lt => below
    | .gt => above
    | .eq =>
      match tie with
      | .toEven => below + below % 2
      | .up => above
  match passes below, passes above with
  | true, true => some nearer
  | true, false => some below
  | false, true => some above
  | false, false => none

/-- The exponents of the grids, from the coarsest to the finest.  No single
precision number reaches `10 ^ 39`, and all are multiples of `10 ^ -149`. -/
def gridExponents : List Int :=
  (List.range 189).map fun i : Nat => 39 - (i : Int)

/-- The shortest decimal that reads back as the finite, non-zero number with
magnitude `x`. -/
def shortest (tie : TieBreak) (x : Float32) : Decimal :=
  let x := x.abs
  let v := Dyadic.ofSingle x
  let hit? (k : Int) : Option Decimal :=
    let (num, den) := v.inUnits k
    (betterNeighbour tie num den fun n =>
      (toSingle ⟨n, k⟩).toBits == x.toBits).map (⟨·, k⟩)
  (gridExponents.findSome? hit?).getD ⟨0, 0⟩

end PitchFollower.Decimal
