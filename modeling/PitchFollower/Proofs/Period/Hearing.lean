import PitchFollower.Proofs.Period.Cycles

/-!
# Hearing a signal

A meter, or a detector, in any state, and what it has become after the first
samples of a signal.  The player of a detector has no influence on its meter.
-/

namespace PitchFollower

/-- The fastest signal that there is. -/
def alternating (n : ℕ) : Float32 :=
  if n % 2 = 0 then 1 else -1

namespace PeriodMeter

/-- The meter `m` after the first `n` samples of a signal. -/
def afterHearing (m : PeriodMeter) (signal : ℕ → Float32) : ℕ → PeriodMeter
  | 0 => m
  | n + 1 => ((m.afterHearing signal n).hear (signal n)).1

/-- The cycle that the meter `m` reports on the `n`-th sample. -/
def closes (m : PeriodMeter) (signal : ℕ → Float32) (n : ℕ) : Option Cycle :=
  ((m.afterHearing signal n).hear (signal n)).2

theorem afterHearing_start (signal : ℕ → Float32) (n : ℕ) :
    start.afterHearing signal n = after signal n := by
  induction n with
  | zero => rfl
  | succ n ih => rw [afterHearing, ih, after]

theorem closes_start (signal : ℕ → Float32) (n : ℕ) :
    start.closes signal n = reported signal n := by
  rw [closes, afterHearing_start, reported]

theorem afterHearing_add (m : PeriodMeter) (signal : ℕ → Float32) (k n : ℕ) :
    m.afterHearing signal (k + n) =
      (m.afterHearing signal k).afterHearing (fun i => signal (k + i)) n := by
  induction n with
  | zero => rfl
  | succ n ih => rw [← add_assoc, afterHearing, ih, afterHearing]

end PeriodMeter

namespace Detector

variable {π ω : Type} [Player π ω] (d : Detector π) (signal : ℕ → Float32)

/-- The detector after the first `n` samples of a signal. -/
def afterHearing : ℕ → Detector π
  | 0 => d
  | n + 1 => ((afterHearing n).hear (signal n)).1

/-- The cycle that its meter reports on the `n`-th sample. -/
def closes (n : ℕ) : Option Cycle :=
  ((d.afterHearing signal n).meter.hear (signal n)).2

theorem meter_afterHearing (n : ℕ) :
    (d.afterHearing signal n).meter = d.meter.afterHearing signal n := by
  induction n with
  | zero => rfl
  | succ n ih =>
    rw [PeriodMeter.afterHearing, ← ih]
    rfl

theorem closes_eq (n : ℕ) : d.closes signal n = d.meter.closes signal n := by
  rw [closes, meter_afterHearing, PeriodMeter.closes]

/-- A new meter drives the player, whatever the player does. -/
theorem meter_start (player : π) (n : ℕ) :
    ((start player).afterHearing signal n).meter =
      PeriodMeter.after signal n := by
  rw [meter_afterHearing]
  exact PeriodMeter.afterHearing_start signal n

theorem closes_start (player : π) (n : ℕ) :
    (start player).closes signal n = PeriodMeter.reported signal n := by
  rw [closes_eq]
  exact PeriodMeter.closes_start signal n

theorem player_afterHearing_succ (n : ℕ) :
    (d.afterHearing signal (n + 1)).player =
      (Player.play (d.afterHearing signal n).player
        (d.afterHearing signal (n + 1)).meter
        (d.closes signal n)).1 :=
  rfl

end Detector

end PitchFollower
