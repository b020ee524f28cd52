import PitchFollower.Midi.Description
import PitchFollower.Midi.Outlet

/-!
# Forwarding events

The events that wait in a queue are sent to an instrument outside the audio
callback.  A failure is logged, and the events behind it are still sent.
-/

namespace PitchFollower.Session

open Midi (Event Outlet)

/-- How much attention a line of the log deserves. -/
inductive Level where
  | trace
  | info
  | warn
deriving DecidableEq, Repr

/-- The name of a level in the log. -/
def Level.label : Level → String
  | .trace => "TRACE"
  | .info => "INFO"
  | .warn => "WARN"

/-- One line of the log. -/
structure LogLine where
  level : Level
  text : String
deriving DecidableEq, Repr

/-- The line as it is shown. -/
def LogLine.render (line : LogLine) : String :=
  line.level.label ++ " " ++ line.text

/-- What is logged about an event and the error that its sending met with. -/
def logged (event : Event) : Option String → LogLine
  | some error => ⟨.warn, event.describe ++ ": " ++ error⟩
  | none =>
    match event with
    | .controlChange .. => ⟨.trace, event.describe⟩
    | _ => ⟨.info, event.describe⟩

/-- What forwarding has come to. -/
structure Forwarded (σ : Type) where
  instrument : σ
  failures : Nat
  log : List LogLine

variable {σ : Type} [Outlet σ String]

/-- Takes the events that wait in a queue, one after the other, and sends each
of them to an instrument. -/
def forward (queue : BoundedQueue Event) (instrument : σ) :
    BoundedQueue Event × Forwarded σ :=
  match _ : queue.pop with
  | (queue, none) => (queue, ⟨instrument, 0, []⟩)
  | (queue, some event) =>
    let (instrument, error) := Outlet.send instrument event
    let (queue, later) := forward queue instrument
    (queue, { later with
      failures := (if error.isSome then 1 else 0) + later.failures
      log := logged event error :: later.log })
termination_by queue.count
decreasing_by exact BoundedQueue.count_lt_of_pop ‹_›

section Steps

variable {queue rest : BoundedQueue Event} {event : Event} (instrument : σ)

/-- Nothing is sent from a queue without events. -/
theorem forward_of_pop_none (h : queue.pop = (rest, none)) :
    forward queue instrument = (queue, ⟨instrument, 0, []⟩) := by
  rw [forward]
  split
  · next heq =>
    rw [heq, Prod.mk.injEq] at h
    rw [(BoundedQueue.eq_of_pop_none heq).1]
  · next heq =>
    rw [h] at heq
    cases heq

/-- The oldest event is sent first, and the others are forwarded whether or not
it was refused. -/
theorem forward_of_pop_some (h : queue.pop = (rest, some event)) :
    forward queue instrument =
      let (instrument, error) := Outlet.send instrument event
      let (queue, later) := forward rest instrument
      (queue, { later with
        failures := (if error.isSome then 1 else 0) + later.failures
        log := logged event error :: later.log }) := by
  rw [forward]
  split
  · next heq =>
    rw [h] at heq
    cases heq
  · next heq =>
    rw [h] at heq
    cases heq
    rfl

end Steps

end PitchFollower.Session
