import PitchFollower.Midi.Transmitter

/-!
# Transmitters and their emitters

A transmitter offers to its outlet exactly the events that its emitter lists,
and the emitter moves on as it would without an outlet.  So what an outlet does
with the events has no influence on those that follow.
-/

namespace PitchFollower.Midi

/-! ## Records of what an outlet is offered -/

/-- An outlet with the events that it has been offered, the oldest first. -/
structure Witnessed (σ : Type) where
  outlet : σ
  offered : List Event

section Outlets

variable {σ ε : Type} [Outlet σ ε]

instance : Outlet (Witnessed σ) ε where
  send w event :=
    let (outlet, refusal) := Outlet.send w.outlet event
    (⟨outlet, w.offered ++ [event]⟩, refusal)

/-- An outlet that writes down every event it is offered writes down all events
of a list, in order. -/
theorem log_sendAll (log : σ → List Event)
    (hlog : ∀ outlet event, log (Outlet.send outlet event).1 =
      log outlet ++ [event])
    (outlet : σ) (events : List Event) :
    log (Outlet.sendAll outlet events).1 = log outlet ++ events := by
  induction events generalizing outlet with
  | nil => exact (List.append_nil _).symm
  | cons event rest ih =>
    calc log (Outlet.sendAll outlet (event :: rest)).1
        = log (Outlet.sendAll (Outlet.send outlet event).1 rest).1 := rfl
      _ = log outlet ++ [event] ++ rest := by rw [ih, hlog]
      _ = log outlet ++ event :: rest := by
        rw [List.append_assoc, List.singleton_append]

theorem offered_sendAll (w : Witnessed σ) (events : List Event) :
    (Outlet.sendAll w events).1.offered = w.offered ++ events :=
  log_sendAll Witnessed.offered (fun _ _ => rfl) w events

theorem events_sendAll (log : EventLog) (events : List Event) :
    (Outlet.sendAll log events).1.events.toList = log.events.toList ++ events :=
  log_sendAll (fun log => log.events.toList) (fun _ _ => Array.toList_push)
    log events

/-! ## Samples -/

/-- A transmitter answers a sample by delivering the answer of its emitter. -/
theorem Transmitter.play_eq_deliver (t : Transmitter σ) (meter : PeriodMeter)
    (cycle : Option Cycle) :
    Player.play t meter cycle =
      deliver t.outlet (Player.play t.emitter meter cycle) := by
  cases cycle <;> rfl

/-- A cycle adds the events that the emitter lists to those offered before. -/
theorem Transmitter.offered_onCycle (t : Transmitter (Witnessed σ))
    (cycle : Cycle) :
    (t.onCycle cycle).1.outlet.offered =
      t.outlet.offered ++ (t.emitter.onCycle cycle).2 :=
  offered_sendAll _ _

end Outlets

/-! ## Calls -/

/-- What an emitter is asked for. -/
inductive Call where
  | cycle (cycle : Cycle)
  | release

/-- The answer of an emitter to a call, with the events to be sent. -/
def Emitter.answer (e : Emitter) : Call → Emitter × List Event
  | .cycle cycle => e.onCycle cycle
  | .release => e.release

/-- The emitter after the calls of a history, the latest call first. -/
def Emitter.after (e : Emitter) : List Call → Emitter
  | [] => e
  | call :: past => ((e.after past).answer call).1

namespace Transmitter

variable {σ ε : Type} [Outlet σ ε]

/-- The answer of a transmitter to a call. -/
def answer (t : Transmitter σ) : Call → Transmitter σ × Option ε
  | .cycle cycle => t.onCycle cycle
  | .release => t.release

/-- The transmitter after the calls of a history, the latest call first. -/
def after (t : Transmitter σ) : List Call → Transmitter σ
  | [] => t
  | call :: past => ((t.after past).answer call).1

theorem answer_eq_deliver (t : Transmitter σ) (call : Call) :
    t.answer call = deliver t.outlet (t.emitter.answer call) := by
  cases call <;> rfl

theorem emitter_after (t : Transmitter σ) (past : List Call) :
    (t.after past).emitter = t.emitter.after past := by
  induction past with
  | nil => rfl
  | cons call past ih =>
    rw [after, answer_eq_deliver, Emitter.after, ← ih]
    rfl

/-- A call adds the events that the emitter lists to those offered before. -/
theorem offered_after_cons (t : Transmitter (Witnessed σ)) (call : Call)
    (past : List Call) :
    (t.after (call :: past)).outlet.offered =
      (t.after past).outlet.offered ++
      ((t.emitter.after past).answer call).2 := by
  rw [after, answer_eq_deliver, ← emitter_after]
  exact offered_sendAll _ _

end Transmitter

end PitchFollower.Midi
