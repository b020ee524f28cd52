import PitchFollower.Decimal.Basic

/-!
# Fixed decimal places

A double precision number with a fixed count of places behind the point.  The
exact binary value is rounded once, and a half goes to the even neighbour.
-/

namespace PitchFollower.Decimal

/-- The integer nearest to `num / den`, a half going to the even neighbour. -/
def roundDiv (num den : Nat) : Nat :=
  let below := num / den
  match compare (2 * (num % den)) den with
  | .lt => below
  | .gt => below + 1
  | .eq => below + below % 2

/-- The magnitude of a finite double precision number in units of
`10 ^ -places`, rounded to an integer. -/
def fixedUnits (places : Nat) (x : Float) : Nat :=
  let bits := x.toBits.toNat
  let stored : Nat := bits / Nat.pow 2 52 % 2048
  let m := bits % Nat.pow 2 52 + (if stored = 0 then 0 else Nat.pow 2 52)
  let q : Int := max stored 1 - 1075
  roundDiv (m * Nat.pow 2 q.toNat * Nat.pow 10 places) (Nat.pow 2 (-q).toNat)

/-- A non-negative finite number with at least one place behind the point. -/
def writeFixed (places : Nat) (x : Float) : String :=
  let units := fixedUnits places x
  let fraction := digits (units % Nat.pow 10 places)
  String.ofList (digits (units / Nat.pow 10 places)) ++ "." ++
    String.ofList (List.replicate (places - fraction.length) '0' ++ fraction)

end PitchFollower.Decimal
