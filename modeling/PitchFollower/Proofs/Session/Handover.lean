import Mathlib.Data.List.Basic
import Mathlib.Tactic.SplitIfs
import PitchFollower.Session.Forwarding

/-!
# A queue with a callback and a forwarder

The callback offers events at one end of the queue while the forwarder takes
them at the other, so the forwarder may come in before any offer, also in the
middle of a buffer.  As an outlet of the callback, a handover is the queue
together with what the forwarder does meanwhile, and it keeps a record of all
that passes.
-/

namespace PitchFollower.Session

open Midi (Event Outlet)

/-- The event queue seen from both of its ends. -/
structure Handover (ι : Type) where
  queue : BoundedQueue Event
  instrument : ι
  /-- How many events the forwarder takes before each of the coming offers. -/
  pace : List ℕ
  /-- The events that the forwarder has taken. -/
  taken : List Event
  /-- The events that the callback has offered, and whether there was room. -/
  offers : List (Event × Bool)
  /-- What had been taken and what waited after each event taken or offered. -/
  moments : List (List Event × List Event)

/-- The events for which there was room. -/
def accepted (offers : List (Event × Bool)) : List Event :=
  (offers.filter Prod.snd).map Prod.fst

theorem accepted_append (offers later : List (Event × Bool)) :
    accepted (offers ++ later) = accepted offers ++ accepted later := by
  rw [accepted, List.filter_append, List.map_append]
  rfl

theorem accepted_sublist (offers : List (Event × Bool)) :
    (accepted offers).Sublist (offers.map Prod.fst) :=
  List.filter_sublist.map Prod.fst

/-- Whether an event of a group has been refused. -/
def refusedIn (group : List (Event × Bool)) : Bool :=
  group.any (!·.2)

theorem accepted_eq_iff (offers : List (Event × Bool)) :
    accepted offers = offers.map Prod.fst ↔ refusedIn offers = false := by
  constructor
  · intro h
    have hlength := congrArg List.length h
    rw [accepted, List.length_map, List.length_map,
      List.length_filter_eq_length_iff] at hlength
    simpa [refusedIn] using hlength
  · intro h
    rw [accepted, List.filter_eq_self.mpr]
    simpa [refusedIn] using h

namespace Handover

variable {ι : Type}

/-- An empty queue before anything has passed. -/
def empty (capacity : ℕ) (instrument : ι) : Handover ι :=
  ⟨.empty capacity, instrument, [], [], [], []⟩

/-- The record with the present moment. -/
def noted (h : Handover ι) : Handover ι :=
  { h with moments := h.moments ++ [(h.taken, h.queue.toList)] }

/-- The callback offers an event. -/
def offer (h : Handover ι) (event : Event) : Handover ι × Option Event :=
  let (queue, refusal) := Outlet.send h.queue event
  (noted
    { h with queue, offers := h.offers ++ [(event, refusal.isNone)] }, refusal)

section Forwarder

variable [Outlet ι String]

/-- The forwarder takes an event, if one waits, and sends it to the
instrument. -/
def take (h : Handover ι) : Handover ι :=
  match h.queue.pop with
  | (queue, some event) =>
    noted { h with
      queue
      instrument := (Outlet.send h.instrument event).1
      taken := h.taken ++ [event] }
  | (_, none) => h

/-- The forwarder takes some events. -/
def takeMany (h : Handover ι) : ℕ → Handover ι
  | 0 => h
  | count + 1 => (h.take).takeMany count

/-- Before an event is offered, the forwarder takes as many as its pace says. -/
instance : Outlet (Handover ι) Event where
  send h event :=
    (({ h with pace := h.pace.tail }).takeMany (h.pace.headD 0)).offer event

end Forwarder

/-! ## What is kept by every move -/

section Invariant

variable {h : Handover ι}

/-- What has been taken and what waits are the accepted events, in order, and so
it was at every moment, for the events accepted by then. -/
structure Sound (h : Handover ι) : Prop where
  passed : h.taken ++ h.queue.toList = accepted h.offers
  moments : ∀ moment ∈ h.moments, moment.1 ++ moment.2 <+: accepted h.offers

theorem sound_empty (capacity : ℕ) (instrument : ι) :
    Sound (empty capacity instrument) :=
  ⟨rfl, fun _ hmoment => absurd hmoment List.not_mem_nil⟩

theorem Sound.noted (hs : Sound h) : Sound h.noted := by
  refine ⟨hs.passed, fun moment hmoment => ?_⟩
  rcases List.mem_append.mp hmoment with hold | hnew
  · exact hs.moments moment hold
  · rw [List.mem_singleton.mp hnew, hs.passed]
    exact List.prefix_rfl

theorem Sound.paced (hs : Sound h) (pace : List ℕ) : Sound { h with pace } :=
  ⟨hs.passed, hs.moments⟩

theorem send_of_full
    {queue : BoundedQueue Event} (hfull : queue.Full) (event : Event) :
    Outlet.send queue event = (queue, some event) := by
  simp only [Outlet.send, BoundedQueue.push, if_pos hfull]

theorem send_of_room
    {queue : BoundedQueue Event} (hroom : ¬ queue.Full) (event : Event) :
    Outlet.send queue event = (queue.append event, none) := by
  simp only [Outlet.send, BoundedQueue.push, if_neg hroom]

/-- A queue adds the events that it accepts at its end. -/
theorem toList_send (queue : BoundedQueue Event) (event : Event) :
    (Outlet.send queue event).1.toList =
      queue.toList ++
      accepted [(event, (Outlet.send queue event).2.isNone)] := by
  by_cases hfull : queue.Full
  · rw [send_of_full hfull]
    exact (List.append_nil _).symm
  · rw [send_of_room hfull]
    exact queue.toList_append event

theorem Sound.offer (hs : Sound h) (event : Event) :
    Sound (h.offer event).1 := by
  refine Sound.noted ⟨?_, fun moment hmoment => ?_⟩
  · change h.taken ++ (Outlet.send h.queue event).1.toList =
      accepted (h.offers ++ [_])
    rw [toList_send, ← List.append_assoc, hs.passed, accepted_append]
    rfl
  · change _ <+: accepted (h.offers ++ _)
    rw [accepted_append]
    exact (hs.moments moment hmoment).trans (List.prefix_append _ _)

variable [Outlet ι String]

theorem Sound.take (hs : Sound h) : Sound h.take := by
  unfold Handover.take
  have hpop := h.queue.toList_pop
  split
  · next queue event heq =>
    rw [heq] at hpop
    refine Sound.noted ⟨?_, hs.moments⟩
    rw [← hs.passed, hpop, List.append_assoc]
    rfl
  · exact hs

theorem Sound.takeMany (hs : Sound h) (count : ℕ) :
    Sound (h.takeMany count) := by
  induction count generalizing h with
  | zero => exact hs
  | succ count ih => exact ih hs.take

theorem offers_take (h : Handover ι) : h.take.offers = h.offers := by
  unfold Handover.take
  split <;> rfl

theorem offers_takeMany (h : Handover ι) (count : ℕ) :
    (h.takeMany count).offers = h.offers := by
  induction count generalizing h with
  | zero => rfl
  | succ count ih => rw [Handover.takeMany, ih, offers_take]

/-- An offer is recorded with whether it was accepted, whatever the forwarder
does before it. -/
theorem offers_send (h : Handover ι) (event : Event) :
    (Outlet.send h event).1.offers =
      h.offers ++ [(event, (Outlet.send h event).2.isNone)] := by
  change (({ h with pace := h.pace.tail } : Handover ι).takeMany
    (h.pace.headD 0)).offers ++ [_] = _
  rw [offers_takeMany]
  rfl

theorem Sound.send (hs : Sound h) (event : Event) :
    Sound (Outlet.send h event).1 :=
  ((hs.paced h.pace.tail).takeMany (h.pace.headD 0)).offer event

/-- A list of events is offered as one group, and a refusal is told if and only
if one of the group was refused. -/
theorem exists_group_sendAll (h : Handover ι) (events : List Event) :
    ∃ group : List (Event × Bool), group.map Prod.fst = events ∧
      (Outlet.sendAll h events).1.offers = h.offers ++ group ∧
      (Outlet.sendAll h events).2.isSome = refusedIn group := by
  induction events generalizing h with
  | nil => exact ⟨[], rfl, (List.append_nil _).symm, rfl⟩
  | cons event rest ih =>
    obtain ⟨group, hevents, hoffers, hrefused⟩ := ih (Outlet.send h event).1
    refine ⟨(event, (Outlet.send h event).2.isNone) :: group, ?_, ?_, ?_⟩
    · rw [List.map_cons, hevents]
    · change (Outlet.sendAll (Outlet.send h event).1 rest).1.offers = _
      rw [hoffers, offers_send, List.append_assoc, List.singleton_append]
    · change ((Outlet.send h event).2.or
        (Outlet.sendAll (Outlet.send h event).1 rest).2).isSome = _
      rw [Option.isSome_or, hrefused, refusedIn, refusedIn, List.any_cons]
      cases (Outlet.send h event).2 <;> rfl

theorem Sound.sendAll (hs : Sound h) (events : List Event) :
    Sound (Outlet.sendAll h events).1 := by
  induction events generalizing h with
  | nil => exact hs
  | cons event rest ih => exact ih (hs.send event)

end Invariant

/-! ## Taking all that waits -/

section All

variable [Outlet ι String]

theorem take_of_pop_some {h : Handover ι} {queue : BoundedQueue Event}
    {event : Event} (hpop : h.queue.pop = (queue, some event)) :
    h.take = noted { h with
      queue
      instrument := (Outlet.send h.instrument event).1
      taken := h.taken ++ [event] } := by
  unfold Handover.take
  rw [hpop]

/-- Forwarding all events of the queue is taking as many as wait. -/
theorem takeMany_count (h : Handover ι) :
    (h.takeMany h.queue.count).queue.toList =
      (forward h.queue h.instrument).1.toList ∧
      (h.takeMany h.queue.count).taken = h.taken ++ h.queue.toList ∧
      (h.takeMany h.queue.count).instrument =
        (forward h.queue h.instrument).2.instrument := by
  generalize hcount : h.queue.count = count
  induction count generalizing h with
  | zero =>
    rcases hpop : h.queue.pop with ⟨queue, _ | event⟩
    · rw [forward_of_pop_none _ hpop, (BoundedQueue.eq_of_pop_none hpop).2,
        List.append_nil]
      exact ⟨(BoundedQueue.eq_of_pop_none hpop).2, rfl, rfl⟩
    · have := BoundedQueue.count_lt_of_pop hpop
      omega
  | succ count ih =>
    rw [← BoundedQueue.length_toList] at hcount
    rcases hpop : h.queue.pop with ⟨queue, _ | event⟩
    · rw [(BoundedQueue.eq_of_pop_none hpop).2] at hcount
      cases hcount
    · rw [BoundedQueue.toList_of_pop hpop] at hcount ⊢
      obtain ⟨hempty, htaken, hinstrument⟩ := ih h.take (by
        rw [take_of_pop_some hpop, ← BoundedQueue.length_toList]
        exact Nat.succ.inj hcount)
      rw [Handover.takeMany, forward_of_pop_some _ hpop]
      rw [take_of_pop_some hpop] at hempty htaken hinstrument ⊢
      exact ⟨hempty, htaken.trans (List.append_assoc _ _ _), hinstrument⟩

end All

end Handover

end PitchFollower.Session
