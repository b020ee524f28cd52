import PitchFollower.Session.Forwarding

/-!
# What an instrument is sent

Forwarding takes one event after the other.  Whatever an instrument refuses, and
for whatever reason in its past, it is sent each of the events that waited once
and in order, and the refusals are what is counted.
-/

namespace PitchFollower.Session

open Midi (Event Outlet)

/-! ## Records of what an instrument is sent -/

/-- An instrument with a record of what passed between it and the forwarder. -/
structure Audited (ι : Type) where
  instrument : ι
  /-- The events sent, and the error that each of them met with, the oldest
  first. -/
  calls : List (Event × Option String)
  /-- The events that the instrument has accepted. -/
  played : List Event

variable {ι : Type}

/-- An instrument with no past. -/
def Audited.fresh (instrument : ι) : Audited ι :=
  ⟨instrument, [], []⟩

/-- The calls that succeeded. -/
def succeeded (calls : List (Event × Option String)) : List Event :=
  (calls.filter (·.2.isNone)).map Prod.fst

/-- What one run of forwarding adds to a record, for a queue that it has
emptied: a call for every event that waited, with its line in the log. -/
structure Settled (waiting : List Event) (before : Audited ι)
    (calls : List (Event × Option String)) (done : Forwarded (Audited ι)) :
    Prop where
  each : calls.map Prod.fst = waiting
  recorded : done.instrument.calls = before.calls ++ calls
  played : done.instrument.played = before.played ++ succeeded calls
  failures : done.failures = calls.countP (·.2.isSome)
  log : done.log = calls.map fun call => logged call.1 call.2

theorem settled_nil (before : Audited ι) :
    Settled [] before [] ⟨before, 0, []⟩ where
  each := rfl
  recorded := (List.append_nil _).symm
  played := (List.append_nil _).symm
  failures := rfl
  log := rfl

section Audit

variable [Outlet ι String]

instance : Outlet (Audited ι) String where
  send a event :=
    let (instrument, error) := Outlet.send a.instrument event
    (⟨instrument, a.calls ++ [(event, error)],
      if error.isSome then a.played else a.played ++ [event]⟩, error)

/-- An event is sent before the others, and the refusal of it is counted. -/
theorem Settled.cons {waiting : List Event} {before : Audited ι} {event : Event}
    {calls : List (Event × Option String)} {later : Forwarded (Audited ι)}
    (h : Settled waiting (Outlet.send before event).1 calls later) :
    Settled (event :: waiting) before
      ((event, (Outlet.send before event).2) :: calls)
      { later with
        failures :=
          (if (Outlet.send before event).2.isSome then 1 else 0) +
            later.failures
        log := logged event (Outlet.send before event).2 :: later.log } where
  each := by rw [List.map_cons, h.each]
  recorded := by
    rw [h.recorded]
    exact List.append_assoc _ _ _
  played := by
    change later.instrument.played = _
    rw [h.played]
    change (if (Outlet.send before event).2.isSome then before.played
      else before.played ++ [event]) ++ _ = _
    cases (Outlet.send before event).2 with
    | none => exact List.append_assoc _ _ _
    | some error => rfl
  failures := by
    rw [List.countP_cons, h.failures, Nat.add_comm]
  log := by rw [List.map_cons, h.log]

/-- Whatever waits is sent.  The induction is on how much that is: the
instrument is another one after each event. -/
theorem exists_settled (queue : BoundedQueue Event) (before : Audited ι) :
    (forward queue before).1.toList = [] ∧
      ∃ calls, Settled queue.toList before calls (forward queue before).2 := by
  generalize hcount : queue.count = count
  induction count using Nat.strongRecOn generalizing queue before with
  | ind count ih =>
    rcases hpop : queue.pop with ⟨rest, _ | event⟩
    · obtain ⟨-, hempty⟩ := BoundedQueue.eq_of_pop_none hpop
      rw [forward_of_pop_none _ hpop, hempty]
      exact ⟨rfl, [], settled_nil before⟩
    · obtain ⟨hempty, calls, hsettled⟩ := ih rest.count
        (hcount ▸ BoundedQueue.count_lt_of_pop hpop) rest
          (Outlet.send before event).1 rfl
      rw [forward_of_pop_some _ hpop, BoundedQueue.toList_of_pop hpop]
      exact ⟨hempty, _, hsettled.cons⟩

/-- A record does not change what is forwarded. -/
theorem forward_audited (queue : BoundedQueue Event) (before : Audited ι) :
    (forward queue before).1 = (forward queue before.instrument).1 ∧
      (forward queue before).2.instrument.instrument =
        (forward queue before.instrument).2.instrument ∧
      (forward queue before).2.failures =
        (forward queue before.instrument).2.failures ∧
      (forward queue before).2.log =
        (forward queue before.instrument).2.log := by
  generalize hcount : queue.count = count
  induction count using Nat.strongRecOn generalizing queue before with
  | ind count ih =>
    rcases hpop : queue.pop with ⟨rest, _ | event⟩
    · rw [forward_of_pop_none _ hpop, forward_of_pop_none _ hpop]
      exact ⟨rfl, rfl, rfl, rfl⟩
    · obtain ⟨hqueue, hinstrument, hfailures, hlog⟩ := ih rest.count
        (hcount ▸ BoundedQueue.count_lt_of_pop hpop) rest
          (Outlet.send before event).1 rfl
      rw [forward_of_pop_some _ hpop, forward_of_pop_some _ hpop]
      exact ⟨hqueue, hinstrument, congrArg _ hfailures, congrArg _ hlog⟩

/-- Forwarding empties the queue and sends each event that waited once and in
order.  It counts the refusals, an instrument that keeps a record has played the
events that it did not refuse, and the record makes no difference to the
instrument. -/
theorem forward_sends_each_once (queue : BoundedQueue Event) (instrument : ι) :
    let (rest, done) := forward queue (Audited.fresh instrument)
    rest.toList = [] ∧
      done.instrument.calls.map Prod.fst = queue.toList ∧
      done.failures = done.instrument.calls.countP (·.2.isSome) ∧
      done.instrument.played = succeeded done.instrument.calls ∧
      (done.log = done.instrument.calls.map fun call => logged call.1 call.2) ∧
      forward queue instrument =
        (rest, ⟨done.instrument.instrument, done.failures, done.log⟩) := by
  obtain ⟨hempty, calls, settled⟩ :=
    exists_settled queue (Audited.fresh instrument)
  obtain ⟨hqueue, hinstrument, hfailures, hlog⟩ :=
    forward_audited queue (Audited.fresh instrument)
  have hcalls : (forward queue (Audited.fresh instrument)).2.instrument.calls =
      calls :=
    settled.recorded
  refine ⟨hempty, ?_, ?_, ?_, ?_, ?_⟩
  · rw [hcalls, settled.each]
  · rw [hcalls, settled.failures]
  · rw [hcalls]
    exact settled.played
  · rw [hcalls, settled.log]
  · rw [hqueue, hinstrument, hfailures, hlog]
    rfl

end Audit

end PitchFollower.Session
