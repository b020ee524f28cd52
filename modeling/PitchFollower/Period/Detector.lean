import PitchFollower.Fault
import PitchFollower.Period.Meter

/-!
# Detectors

A detector drives a period meter and hands its state to a player after every
sample: something that keeps a state of its own and answers each sample.
-/

namespace PitchFollower

/-- A state that answers each sample of a metered signal.  `play` is told the
meter after the sample and the cycle that the sample closed. -/
class Player (π : Type) (ω : outParam Type) where
  play : π → PeriodMeter → Option Cycle → π × ω

/-- A player with the meter that drives it. -/
structure Detector (π : Type) where
  meter : PeriodMeter
  player : π
  /-- Samples heard since the start or the last reset. -/
  heard : Nat

namespace Detector

variable {π ω : Type}

/-- A player in front of a signal that has not begun. -/
def start (player : π) : Detector π :=
  ⟨.start, player, 0⟩

/-- Starts the meter anew.  The player stays as it is. -/
def reset (d : Detector π) : Detector π :=
  start d.player

variable [Player π ω]

/-- Hears one sample. -/
def hear (d : Detector π) (sample : Float32) : Detector π × ω :=
  let (meter, cycle) := d.meter.hear sample
  let (player, answer) := Player.play d.player meter cycle
  (⟨meter, player, d.heard + 1⟩, answer)

/-- Hears a buffer of samples, and collects the answers in order. -/
def hearAll (d : Detector π) (samples : Array Float32) : Detector π × Array ω :=
  samples.foldl
    (fun (d, answers) sample =>
      let (d, answer) := d.hear sample
      (d, answers.push answer))
    (d, #[])

/-- Hears a buffer of samples for an output buffer of a given length, which has
to be that of the input. -/
def hearInto (d : Detector π) (samples : Array Float32) (length : Nat) :
    Except Fault (Detector π × Array ω) :=
  if samples.size = length then .ok (d.hearAll samples)
  else .error (.outputLength length samples.size)

end Detector

end PitchFollower
