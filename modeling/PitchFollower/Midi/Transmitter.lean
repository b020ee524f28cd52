import PitchFollower.Midi.Emitter
import PitchFollower.Midi.Outlet

/-!
# Transmitters

An emitter connected to an outlet.  All events of a cycle are offered to the
outlet, and the first refusal is reported.
-/

namespace PitchFollower.Midi

/-- An emitter and the outlet that it sends to. -/
structure Transmitter (σ : Type) where
  emitter : Emitter
  outlet : σ

namespace Transmitter

variable {σ ε : Type} [Outlet σ ε]

/-- The transmitter after the emitter has moved on and its events have been
offered, with the first refusal. -/
def deliver (outlet : σ) (step : Emitter × List Event) :
    Transmitter σ × Option ε :=
  let (outlet, refusal) := Outlet.sendAll outlet step.2
  (⟨step.1, outlet⟩, refusal)

/-- Takes a closed cycle. -/
def onCycle (t : Transmitter σ) (cycle : Cycle) : Transmitter σ × Option ε :=
  deliver t.outlet (t.emitter.onCycle cycle)

/-- Ends the sounding note.  To be called before the outlet goes away, so that
no note is left hanging. -/
def release (t : Transmitter σ) : Transmitter σ × Option ε :=
  deliver t.outlet t.emitter.release

/-- A transmitter answers the samples that close a cycle. -/
instance : Player (Transmitter σ) (Option ε) where
  play t _ cycle :=
    match cycle with
    | some cycle => t.onCycle cycle
    | none => (t, none)

end Transmitter

end PitchFollower.Midi
