import PitchFollower.Midi.Event
import PitchFollower.Queue

/-!
# Outlets

An outlet is a place that events are sent to.  It has a state of its own and
may refuse events for any reason that its state gives.  Delivery is fire and
forget: a refusal is reported and nothing is tried again.
-/

namespace PitchFollower.Midi

/-- A state that takes events, with the reasons `ε` for which it refuses. -/
class Outlet (σ : Type) (ε : outParam Type) where
  /-- Offers one event, and tells why it was refused, if it was. -/
  send : σ → Event → σ × Option ε

namespace Outlet

variable {σ ε : Type} [Outlet σ ε]

/-- Offers events one after the other, all of them, and tells the first reason
for a refusal, if there was one. -/
def sendAll (outlet : σ) : List Event → σ × Option ε
  | [] => (outlet, none)
  | event :: rest =>
    let (outlet, refusal) := send outlet event
    let (outlet, later) := sendAll outlet rest
    (outlet, refusal.or later)

end Outlet

/-- A record of all events sent.  It refuses none. -/
structure EventLog where
  events : Array Event

/-- A record without events. -/
def EventLog.empty : EventLog :=
  ⟨#[]⟩

instance : Outlet EventLog Empty where
  send log event := (⟨log.events.push event⟩, none)

/-- A queue refuses an event when it is full, and gives it back. -/
instance : Outlet (BoundedQueue Event) Event where
  send queue event :=
    match queue.push event with
    | (queue, true) => (queue, none)
    | (queue, false) => (queue, some event)

end PitchFollower.Midi
