import Mathlib.Data.List.Infix
import Mathlib.Tactic.SplitIfs
import PitchFollower.Proofs.Midi.Delivery
import PitchFollower.Proofs.Session.Handover
import PitchFollower.Session.Live

/-!
# Callbacks and forwarding in any order

A live session is a list of callbacks, commands and takes of the forwarder, in
whatever order they come.  The same callbacks and commands, without a forwarder
and with a log that refuses nothing, are its offline counterpart.  A live
session differs from it only in the events that the queue has refused.
-/

namespace PitchFollower.Session

open Midi (Emitter Event EventLog Outlet Transmitter)

/-! ## Live sessions -/

/-- One move in a live session. -/
inductive Action where
  /-- The audio device hands over a buffer.  The forwarder takes some events
  before each event that the callback offers. -/
  | callback (pace : List ℕ) (samples : Array Float32)
  | command (c : Command)
  /-- The forwarder takes some events. -/
  | take (count : ℕ)

namespace LiveMidi

variable {ι : Type}

/-- The callback with its event queue changed. -/
def withOutlet {σ : Type} (s : LiveMidi σ) (outlet : σ) : LiveMidi σ :=
  { s with
    detector :=
      { s.detector with player := { s.detector.player with outlet } } }

/-- The event queue of the callback. -/
def handover (s : LiveMidi (Handover ι)) : Handover ι :=
  s.detector.player.outlet

variable [Outlet ι String]

/-- The session after one move. -/
def act (s : LiveMidi (Handover ι)) : Action → LiveMidi (Handover ι)
  | .callback pace samples =>
    ((s.withOutlet { s.handover with pace }).process samples).1
  | .command c => (s.command c).1
  | .take count => s.withOutlet (s.handover.takeMany count)

/-- The session after a callback, by the command that the callback has taken. -/
theorem process_fst
    {σ ε : Type} [Outlet σ ε] (s : LiveMidi σ) (samples : Array Float32) :
    (s.process samples).1 =
      let heard := samples.foldl hear s
      let told := { heard with commands := heard.commands.pop.1 }
      match heard.commands.pop.2 with
      | some .stop => told.release
      | none => told := by
  unfold process
  dsimp only
  generalize (samples.foldl hear s).commands.pop = popped
  rcases popped with ⟨commands, _ | ⟨⟨⟩⟩⟩ <;> rfl

/-- A session from its start. -/
def session (emitter : Emitter) (capacity : ℕ) (instrument : ι)
    (actions : List Action) : LiveMidi (Handover ι) :=
  actions.foldl act (start emitter (.empty capacity instrument))

end LiveMidi

/-! ## Offline sessions -/

/-- What a session hears and is told. -/
inductive Input where
  | buffer (samples : Array Float32)
  | command (c : Command)

/-- A move without what the forwarder does. -/
def Action.input? : Action → Option Input
  | .callback _ samples => some (.buffer samples)
  | .command c => some (.command c)
  | .take _ => none

/-- An emitter with a log that refuses nothing. -/
structure Offline where
  detector : Detector (Transmitter EventLog)
  commands : BoundedQueue Command
  /-- What the log has gained with each sample and with each release. -/
  gains : List (List Event)

namespace Offline

/-- The events of the log. -/
def events (o : Offline) : List Event :=
  o.detector.player.outlet.events.toList

/-- The next state of the detector, with what its log has gained. -/
def moveTo (o : Offline) (detector : Detector (Transmitter EventLog)) :
    Offline :=
  { o with
    detector
    gains :=
      o.gains ++ [detector.player.outlet.events.toList.drop o.events.length] }

/-- Hears one sample. -/
def hear (o : Offline) (sample : Float32) : Offline :=
  o.moveTo (o.detector.hear sample).1

/-- Releases the sounding note. -/
def release (o : Offline) : Offline :=
  o.moveTo { o.detector with player := o.detector.player.release.1 }

/-- Hears a buffer and releases the sounding note if there is a command to stop,
or takes a command. -/
def step (o : Offline) : Input → Offline
  | .buffer samples =>
    let heard := samples.foldl hear o
    let told := { heard with commands := heard.commands.pop.1 }
    match heard.commands.pop.2 with
    | some .stop => told.release
    | none => told
  | .command c => { o with commands := (o.commands.push c).1 }

/-- A session from its start. -/
def session (emitter : Emitter) (inputs : List Input) : Offline :=
  inputs.foldl step ⟨.start ⟨emitter, .empty⟩, .empty commandCapacity, []⟩

end Offline

/-- A log gains what is delivered to it. -/
theorem Offline.moveTo_deliver (o : Offline) (meter : PeriodMeter) (heard : ℕ)
    (answer : Emitter × List Event) :
    let next := o.moveTo
      ⟨meter, (Transmitter.deliver o.detector.player.outlet answer).1, heard⟩
    next.events = o.events ++ answer.2 ∧
      next.gains = o.gains ++ [answer.2] := by
  have hlog :
      (Outlet.sendAll o.detector.player.outlet answer.2).1.events.toList =
        o.events ++ answer.2 :=
    Midi.events_sendAll _ _
  refine ⟨hlog, ?_⟩
  change o.gains ++ [List.drop o.events.length
    (Outlet.sendAll o.detector.player.outlet answer.2).1.events.toList] = _
  rw [hlog, List.drop_left]

/-! ## The same events -/

/-- The emitter without its display. -/
def unwatched (e : Emitter) : Emitter :=
  { e with monitor := none }

theorem unwatched_play (e : Emitter) (meter : PeriodMeter)
    (cycle : Option Cycle) :
    Player.play (unwatched e) meter cycle =
      (unwatched (Player.play e meter cycle).1,
        (Player.play e meter cycle).2) := by
  cases cycle <;> rfl

theorem unwatched_release (e : Emitter) :
    (unwatched e).release = (unwatched e.release.1, e.release.2) :=
  rfl

/-- A live session that differs from its offline counterpart at most in the
events that were refused. -/
structure Agrees {ι : Type} (s : LiveMidi (Handover ι)) (o : Offline) :
    Prop where
  meter : s.detector.meter = o.detector.meter
  heard : s.detector.heard = o.detector.heard
  emitter :
      unwatched s.detector.player.emitter = unwatched o.detector.player.emitter
  commands : s.commands = o.commands
  sound : s.handover.Sound
  gains : o.gains.flatten = o.events
  groups : ∃ groups : List (List (Event × Bool)),
    groups.map (·.map Prod.fst) = o.gains ∧ groups.flatten = s.handover.offers ∧
      s.dropped = groups.countP refusedIn

section Moves

variable {ι : Type} {s : LiveMidi (Handover ι)} {o : Offline}

theorem Agrees.withOutlet (h : Agrees s o) {moved : Handover ι}
    (hsound : moved.Sound) (hoffers : moved.offers = s.handover.offers) :
    Agrees (s.withOutlet moved) o := by
  obtain ⟨groups, hgains, hflatten, hdropped⟩ := h.groups
  exact ⟨h.meter, h.heard, h.emitter, h.commands, hsound, h.gains,
    groups, hgains, hflatten.trans hoffers.symm, hdropped⟩

theorem Agrees.withCommands (h : Agrees s o) (commands : BoundedQueue Command) :
    Agrees { s with commands } { o with commands } :=
  ⟨h.meter, h.heard, h.emitter, rfl, h.sound, h.gains, h.groups⟩

variable [Outlet ι String]

/-- Both sessions deliver what their emitters list.  The log gains the events
that the queue is offered as one group. -/
theorem Agrees.deliver (h : Agrees s o) (meter : PeriodMeter) (heard : ℕ)
    {live offline : Emitter × List Event}
    (hemitter : unwatched live.1 = unwatched offline.1)
    (hevents : live.2 = offline.2) :
    Agrees
      { s with
        detector := ⟨meter, (Transmitter.deliver s.handover live).1, heard⟩
        dropped :=
          LiveMidi.count s.dropped (Transmitter.deliver s.handover live).2 }
      (o.moveTo ⟨meter,
        (Transmitter.deliver o.detector.player.outlet offline).1, heard⟩) := by
  obtain ⟨groups, hgains, hoffers, hdropped⟩ := h.groups
  obtain ⟨group, hgroup, hsent, hrefused⟩ :=
    s.handover.exists_group_sendAll live.2
  obtain ⟨hlog, hgained⟩ := o.moveTo_deliver meter heard offline
  refine ⟨rfl, rfl, hemitter, h.commands, h.sound.sendAll live.2, ?_,
    groups ++ [group], ?_, ?_, ?_⟩
  · rw [hgained, List.flatten_append, h.gains, List.flatten_singleton]
    exact hlog.symm
  · rw [hgained, List.map_append, hgains, List.map_singleton, hgroup, hevents]
  · rw [List.flatten_append, hoffers, List.flatten_singleton]
    exact hsent.symm
  · change LiveMidi.count s.dropped (Outlet.sendAll s.handover live.2).2 = _
    rw [List.countP_append, List.countP_singleton, ← hdropped, LiveMidi.count,
      hrefused]
    split_ifs <;> rfl

theorem Agrees.hear (h : Agrees s o) (sample : Float32) :
    Agrees (s.hear sample) (o.hear sample) := by
  have hlive := unwatched_play s.detector.player.emitter
    (s.detector.meter.hear sample).1 (s.detector.meter.hear sample).2
  have hoffline := unwatched_play o.detector.player.emitter
    (s.detector.meter.hear sample).1 (s.detector.meter.hear sample).2
  rw [h.emitter, hoffline, Prod.mk.injEq] at hlive
  have hdelivered :=
    h.deliver (s.detector.meter.hear sample).1 (s.detector.heard + 1)
    hlive.1.symm hlive.2.symm
  simp only [LiveMidi.hear, Offline.hear, Detector.hear,
    Transmitter.play_eq_deliver]
  rw [← h.meter, ← h.heard]
  exact hdelivered

theorem Agrees.release (h : Agrees s o) : Agrees s.release o.release := by
  have hlive := unwatched_release s.detector.player.emitter
  rw [h.emitter, unwatched_release, Prod.mk.injEq] at hlive
  have hdelivered :=
    h.deliver s.detector.meter s.detector.heard hlive.1.symm hlive.2.symm
  change Agrees s.release
    (o.moveTo ⟨o.detector.meter, o.detector.player.release.1, o.detector.heard⟩)
  rw [← h.meter, ← h.heard]
  exact hdelivered

theorem Agrees.hearAll (h : Agrees s o) (samples : Array Float32) :
    Agrees (samples.foldl LiveMidi.hear s) (samples.foldl Offline.hear o) := by
  rcases samples with ⟨samples⟩
  simp only [List.foldl_toArray]
  induction samples generalizing s o with
  | nil => exact h
  | cons sample rest ih => exact ih (h.hear sample)

theorem Agrees.process (h : Agrees s o) (samples : Array Float32) :
    Agrees (s.process samples).1 (o.step (.buffer samples)) := by
  have hheard := h.hearAll samples
  have htold :=
    hheard.withCommands (samples.foldl Offline.hear o).commands.pop.1
  rw [LiveMidi.process_fst, Offline.step]
  dsimp only
  rw [hheard.commands]
  split
  · exact htold.release
  · exact htold

/-- The session takes the inputs of its moves. -/
theorem Agrees.act (h : Agrees s o) (action : Action) :
    Agrees (s.act action) (action.input?.toList.foldl Offline.step o) := by
  cases action with
  | callback pace samples =>
    exact (h.withOutlet (h.sound.paced pace) rfl).process samples
  | command c =>
    change Agrees { s with commands := (s.commands.push c).1 } _
    rw [h.commands]
    exact h.withCommands _
  | take count =>
    exact h.withOutlet (h.sound.takeMany count)
      (s.handover.offers_takeMany count)

end Moves

theorem agrees_session {ι : Type} [Outlet ι String] (emitter : Emitter)
    (capacity : ℕ) (instrument : ι) (actions : List Action) :
    Agrees (LiveMidi.session emitter capacity instrument actions)
      (Offline.session emitter (actions.filterMap Action.input?)) := by
  induction actions using List.reverseRecOn with
  | nil =>
    exact ⟨rfl, rfl, rfl, rfl, Handover.sound_empty capacity instrument, rfl,
      [], rfl, rfl, rfl⟩
  | append_singleton actions action ih =>
    have hact := ih.act action
    rw [LiveMidi.session, Offline.session, List.filterMap_append,
      List.foldl_append, List.foldl_append]
    exact hact

section Agreement

variable {ι : Type} {s : LiveMidi (Handover ι)} {o : Offline}

theorem Agrees.offered (h : Agrees s o) :
    s.handover.offers.map Prod.fst = o.events := by
  obtain ⟨groups, hgains, hflatten, -⟩ := h.groups
  rw [← hflatten, List.map_flatten, hgains, h.gains]

theorem Agrees.accepted_sublist (h : Agrees s o) :
    (accepted s.handover.offers).Sublist o.events :=
  h.offered ▸ Session.accepted_sublist s.handover.offers

theorem Agrees.dropped_eq_zero_iff (h : Agrees s o) :
    accepted s.handover.offers = o.events ↔ s.dropped = 0 := by
  obtain ⟨groups, -, hflatten, hdropped⟩ := h.groups
  rw [← h.offered, accepted_eq_iff, ← hflatten, refusedIn, List.any_flatten,
    hdropped, List.countP_eq_zero, List.any_eq_false]
  rfl

end Agreement

/-- A live session hands over the events of its offline counterpart, for every
capacity, every split of the samples into buffers and every timing of the
forwarder, except those that the full queue has refused.  The groups are what
the queue was offered for single samples and releases. -/
theorem live_hands_over_offline_events {ι : Type} [Outlet ι String]
    (emitter : Emitter) (capacity : ℕ) (instrument : ι)
    (actions : List Action) :
    let live := LiveMidi.session emitter capacity instrument actions
    let offline := Offline.session emitter (actions.filterMap Action.input?)
    let passed := live.handover.taken ++ live.handover.queue.toList
    passed.Sublist offline.events ∧
      (∀ moment ∈ live.handover.moments,
        (moment.1 ++ moment.2).Sublist offline.events) ∧
      passed = accepted live.handover.offers ∧
      (∃ groups : List (List (Event × Bool)),
        groups.flatten = live.handover.offers ∧
        groups.map (·.map Prod.fst) = offline.gains ∧
          live.dropped = groups.countP refusedIn) ∧
      offline.gains.flatten = offline.events ∧
      (passed = offline.events ↔ live.dropped = 0) ∧
      live.detector.meter = offline.detector.meter ∧
      live.detector.heard = offline.detector.heard ∧
      live.commands = offline.commands ∧
      unwatched live.detector.player.emitter =
        unwatched offline.detector.player.emitter := by
  intro live offline passed
  have h : Agrees live offline :=
    agrees_session emitter capacity instrument actions
  have hpassed : passed = accepted live.handover.offers := h.sound.passed
  refine ⟨?_, fun moment hmoment => ?_, hpassed, ?_, h.gains, ?_, h.meter,
    h.heard, h.commands, h.emitter⟩
  · rw [hpassed]
    exact h.accepted_sublist
  · exact (h.sound.moments moment hmoment).sublist.trans h.accepted_sublist
  · obtain ⟨groups, hgains, hflatten, hdropped⟩ := h.groups
    exact ⟨groups, hflatten, hgains, hdropped⟩
  · rw [hpassed]
    exact h.dropped_eq_zero_iff

end PitchFollower.Session
