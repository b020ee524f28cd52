import PitchFollower.Period.Crossing

/-!
# Measuring periods

A period meter takes one sample at a time and closes a cycle on every falling
crossing.  The part of the closing sample behind the crossing is carried into
the next cycle, so the measured periods do not drift.  Rising crossings only
arm the meter for the next falling one.
-/

namespace PitchFollower

/-- A closed cycle: the distance in samples from the falling crossing before it
to the one that closes it, and the mean magnitude of its samples. -/
structure Cycle where
  period : Float32
  energy : Float32

/-- The closed cycles counted modulo 8, 12 and 16. -/
structure PhaseCounters where
  eighth : Fin 8
  twelfth : Fin 12
  sixteenth : Fin 16
deriving DecidableEq

namespace PhaseCounters

/-- The numbers of cycles after which the counters come round. -/
def moduli : List Nat :=
  [8, 12, 16]

/-- No cycle counted. -/
def zero : PhaseCounters :=
  ⟨⟨0, by decide⟩, ⟨0, by decide⟩, ⟨0, by decide⟩⟩

/-- One more cycle counted. -/
def next (c : PhaseCounters) : PhaseCounters :=
  ⟨⟨(c.eighth + 1 : Nat) % 8, Nat.mod_lt _ (by decide)⟩,
    ⟨(c.twelfth + 1 : Nat) % 12, Nat.mod_lt _ (by decide)⟩,
    ⟨(c.sixteenth + 1 : Nat) % 16, Nat.mod_lt _ (by decide)⟩⟩

/-- The counts in the order of `moduli`. -/
def toList (c : PhaseCounters) : List Nat :=
  [c.eighth, c.twelfth, c.sixteenth]

end PhaseCounters

/-- What is known of the signal so far. -/
structure PeriodMeter where
  /-- The sample before, silenced if it was not finite. -/
  previous : Float32
  /-- Whether the signal has been positive since the last falling crossing. -/
  armed : Bool
  /-- Samples since the last falling crossing, with their fraction. -/
  elapsed : Float32
  /-- The period of the last closed cycle. -/
  period : Float32
  /-- The sum of magnitudes since the last falling crossing. -/
  gathered : Float32
  /-- The energy of the last closed cycle. -/
  energy : Float32
  counters : PhaseCounters
  cycleCount : Nat

namespace PeriodMeter

/-- The period that stands for the last one until a cycle has been closed. -/
def initialPeriod : Float32 := 40

/-- A meter that has not heard anything.  There is no history before the first
sample, so it starts armed, after silence. -/
def start : PeriodMeter where
  previous := 0
  armed := true
  elapsed := 0
  period := initialPeriod
  gathered := 0
  energy := 0
  counters := .zero
  cycleCount := 0

/-- Places a falling crossing before the sample `first`.  A cycle is closed
unless the crossing coincides with the one before, which only the very first
sample of a signal can bring about. -/
def fall (m : PeriodMeter) (first : Float32) : PeriodMeter × Option Cycle :=
  let fraction := Crossing.fraction m.previous first
  let period := m.elapsed - fraction
  let energy := m.gathered / period
  let fallen := { m with armed := false, elapsed := fraction, gathered := 0 }
  if 0 < period then
    ({ fallen with
        period := period
        energy := energy
        counters := m.counters.next
        cycleCount := m.cycleCount + 1 },
      some ⟨period, energy⟩)
  else (fallen, none)

/-- Hears one sample, and reports the cycle that it closes, if any.  A sample
that is not finite counts as silence. -/
def hear (m : PeriodMeter) (sample : Float32) : PeriodMeter × Option Cycle :=
  let x := Single.finiteOrZero sample
  let counted :=
    { m with gathered := m.gathered + x.abs, elapsed := m.elapsed + 1 }
  let (heard, cycle) :=
    if m.armed then
      if x < 0 then counted.fall x else (counted, none)
    else ({ counted with armed := decide (0 < x) }, none)
  ({ heard with previous := x }, cycle)

end PeriodMeter

end PitchFollower
