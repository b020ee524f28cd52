import PitchFollower.Single.Approximation
import PitchFollower.Fault

/-!
# Wavetables

One cycle of a sine, sampled at equal distances.  Looking up a phase, counted
in cycles, takes the nearest entry, and phases one cycle apart share it.
-/

namespace PitchFollower

/-- The values of one cycle. -/
structure Wavetable where
  values : Array Float32
  nonempty : 0 < values.size

namespace Wavetable

/-- The size of a table unless another one is asked for. -/
def defaultSize : Nat := 100

/-- The sine at `index` of `size` equal steps through a cycle. -/
def sineAt (size index : Nat) : Float32 :=
  Single.Approximate.sin
    (2 * Single.Approximate.pi * Single.ofNat index / Single.ofNat size)

/-- The sine table of a positive size. -/
def sine (size : Nat) (positive : 0 < size) : Wavetable where
  values := Array.ofFn fun index : Fin size => sineAt size index
  nonempty := by simpa using positive

/-- The sine table of a size, which must not be zero. -/
def ofSize (size : Nat) : Except Fault Wavetable :=
  if positive : 0 < size then
    .ok (sine size positive)
  else .error .emptyWavetable

/-- The table that is used unless another size is asked for. -/
def standard : Wavetable :=
  sine defaultSize (by decide)

/-- The number of the entry nearest to a phase, before whole cycles are taken
away. -/
def position (table : Wavetable) (phase : Float32) : Float32 :=
  Single.Approximate.floor (phase * Single.ofNat table.values.size + 0.5)

/-- The place of the entry nearest to a phase. -/
def place (table : Wavetable) (phase : Float32) : Fin table.values.size :=
  let index :=
    Single.wholePart64 (table.position phase) % (table.values.size : Int)
  ⟨index.toNat, by
    have positive : (0 : Int) < table.values.size := by
      exact_mod_cast table.nonempty
    have :=
      Int.emod_nonneg (Single.wholePart64 (table.position phase))
        (Int.ne_of_gt positive)
    have :=
      Int.emod_lt_of_pos (Single.wholePart64 (table.position phase)) positive
    omega⟩

/-- The value of the entry nearest to a phase, or silence without a position. -/
def lookUp (table : Wavetable) (phase : Float32) : Float32 :=
  if (table.position phase).isFinite then table.values[table.place phase] else 0

end Wavetable

end PitchFollower
