import PitchFollower.Proofs.Midi.Notes
import PitchFollower.Proofs.Session.Interleaving

/-!
# Teardown

The last callback of a session releases the sounding note.  This module follows
the notes that have reached the instrument up to the events behind that release.
Delivery is fire and forget: an emitter that has moved on to another note does
not end the one before it a second time, so a note can hang if the queue was
full when its end was sent, and for no other reason.
-/

namespace PitchFollower.Session

open Midi (Call Emitter EmitterSettings Event EventLog Outlet Remembers
  Transmitter followAll)

/-! ## Ends of notes -/

theorem exists_end_of_open {channel note : UInt8} {events : List Event}
    (h : followAll channel (some note) events = some none) :
    ∃ between velocity rest, events =
      between ++ .noteOff channel note velocity :: rest ∧
      ∀ event ∈ between, event.isNote = false := by
  induction events with
  | nil => cases h
  | cons event events ih =>
    cases event with
    | noteOn c n v => simp [followAll, Midi.follow] at h
    | controlChange c k v =>
      obtain ⟨between, velocity, rest, rfl, hbetween⟩ := ih h
      refine ⟨.controlChange c k v :: between, velocity, rest, rfl,
        fun event hevent => ?_⟩
      rcases List.mem_cons.mp hevent with rfl | hmem
      · rfl
      · exact hbetween event hmem
    | noteOff c n v =>
      by_cases hown : c = channel ∧ some note = some n
      · obtain ⟨rfl, hnote⟩ := hown
        cases hnote
        exact ⟨[], v, events, rfl,
          fun _ hevent => absurd hevent List.not_mem_nil⟩
      · simp only [followAll, Midi.follow, if_neg hown, Option.bind_none] at h
        cases h

/-- A note that was started while an instrument is in step is ended by the next
note event, if no note is open in the end. -/
theorem exists_end_of_noteOn {channel c note velocity : UInt8}
    {opened : Option UInt8} {before after : List Event}
    (h : followAll channel opened (before ++ .noteOn c note velocity :: after) =
      some none) :
    ∃ between w rest, after = between ++ .noteOff c note w :: rest ∧
      ∀ event ∈ between, event.isNote = false := by
  rw [Midi.followAll_append] at h
  obtain ⟨opened', -, h⟩ := Option.bind_eq_some_iff.mp h
  rw [followAll, Midi.follow] at h
  split_ifs at h with hstart
  · obtain ⟨rfl, -, -⟩ := hstart
    exact exists_end_of_open h
  · cases h

/-! ## Offline sessions keep their instrument in step -/

/-- The emitter has kept its history, and the log ends with its note open. -/
structure InStep (e : Emitter) (o : Offline) : Prop where
  remembers : ∃ past, Remembers e past o.detector.player.emitter
  follows : followAll e.settings.channel none o.events =
    some o.detector.player.emitter.gate.sounding

section InStep

variable {e : Emitter} {o : Offline}

theorem InStep.moveTo (h : InStep e o) (hfault : e.settings.fault? = none)
    (call : Call) (meter : PeriodMeter) (heard : ℕ) :
    InStep e (o.moveTo
      ⟨meter, (Transmitter.deliver o.detector.player.outlet
        (o.detector.player.emitter.answer call)).1, heard⟩) := by
  obtain ⟨past, hpast⟩ := h.remembers
  refine ⟨⟨call :: past, (hpast.answer call).1⟩, ?_⟩
  change followAll _ none
    (Outlet.sendAll o.detector.player.outlet _).1.events.toList = _
  rw [Midi.events_sendAll, Midi.followAll_append]
  change (followAll _ none o.events).bind _ = _
  rw [h.follows, Option.bind_some]
  exact hpast.followAll_answer hfault call

theorem InStep.hear
    (h : InStep e o) (hfault : e.settings.fault? = none) (sample : Float32) :
    InStep e (o.hear sample) := by
  unfold Offline.hear Detector.hear
  dsimp only
  rw [Transmitter.play_eq_deliver]
  cases (o.detector.meter.hear sample).2 with
  | none => exact ⟨h.remembers, h.follows⟩
  | some cycle => exact h.moveTo hfault (.cycle cycle) _ _

theorem InStep.release (h : InStep e o) (hfault : e.settings.fault? = none) :
    InStep e o.release :=
  h.moveTo hfault .release _ _

theorem InStep.hearAll (h : InStep e o) (hfault : e.settings.fault? = none)
    (samples : Array Float32) : InStep e (samples.foldl Offline.hear o) := by
  rcases samples with ⟨samples⟩
  simp only [List.foldl_toArray]
  induction samples generalizing o with
  | nil => exact h
  | cons sample rest ih => exact ih (h.hear hfault sample)

theorem InStep.step
    (h : InStep e o) (hfault : e.settings.fault? = none) (input : Input) :
    InStep e (o.step input) := by
  cases input with
  | command c => exact ⟨h.remembers, h.follows⟩
  | buffer samples =>
    have hheard := h.hearAll hfault samples
    have htold : InStep e { samples.foldl Offline.hear o with
        commands := (samples.foldl Offline.hear o).commands.pop.1 } :=
      ⟨hheard.remembers, hheard.follows⟩
    unfold Offline.step
    dsimp only
    split
    · exact htold.release hfault
    · exact htold

theorem inStep_session (hfault : e.settings.fault? = none)
    (hfresh : e.gate = .silent e.settings.gateThreshold) (inputs : List Input) :
    InStep e (Offline.session e inputs) := by
  induction inputs using List.reverseRecOn with
  | nil =>
    exact ⟨⟨[], Midi.remembers_after hfresh []⟩,
      congrArg (some ∘ Midi.NoteGate.sounding) hfresh.symm⟩
  | append_singleton inputs input ih =>
    rw [Offline.session, List.foldl_append]
    exact ih.step hfault input

end InStep

/-! ## The last callback -/

/-- A session up to its last callback, and what the forwarder takes
afterwards. -/
structure Ending (ι : Type) where
  emitter : Emitter
  capacity : ℕ
  instrument : ι
  earlier : List Action
  /-- What the forwarder takes during the last callback. -/
  pace : List ℕ
  samples : Array Float32
  /-- What the forwarder takes after the last callback. -/
  drains : List ℕ

namespace Ending

variable {ι : Type} [Outlet ι String]

/-- The session before the last callback. -/
def before (r : Ending ι) : LiveMidi (Handover ι) :=
  LiveMidi.session r.emitter r.capacity r.instrument r.earlier

/-- The last callback when it has heard its samples. -/
def heard (r : Ending ι) : LiveMidi (Handover ι) :=
  r.samples.foldl LiveMidi.hear
    (r.before.withOutlet { r.before.handover with pace := r.pace })

/-- The session in the end. -/
def final (r : Ending ι) : LiveMidi (Handover ι) :=
  LiveMidi.session r.emitter r.capacity r.instrument
    (r.earlier ++ .callback r.pace r.samples :: r.drains.map .take)

/-- The events that the forwarder has sent to the instrument. -/
def delivered (r : Ending ι) : List Event :=
  r.final.handover.taken

/-- The last callback takes a command to stop, the queue has room for what it
releases, and in the end no event waits. -/
structure Clean (r : Ending ι) : Prop where
  stops : r.heard.commands.pop.2 = some .stop
  released : r.heard.detector.player.release.2 = none
  drained : r.final.handover.queue.toList = []

/-- The session when the last callback has ended. -/
def stopped (r : Ending ι) : LiveMidi (Handover ι) :=
  r.before.act (.callback r.pace r.samples)

theorem stopped_eq_release {r : Ending ι} (h : r.Clean) :
    r.stopped = ({ r.heard with commands := r.heard.commands.pop.1 } :
      LiveMidi (Handover ι)).release := by
  have hstop := h.stops
  rw [heard] at hstop
  change (LiveMidi.process _ r.samples).1 = _
  simp only [LiveMidi.process_fst, hstop]
  rfl

/-- The events of the final release have all been accepted. -/
theorem offers_stopped {r : Ending ι} (h : r.Clean) :
    ∃ group, r.stopped.handover.offers = r.heard.handover.offers ++ group ∧
      ∀ offer ∈ group, offer.2 = true := by
  obtain ⟨group, -, hsent, hrefused⟩ :=
    r.heard.handover.exists_group_sendAll
      r.heard.detector.player.emitter.release.2
  refine ⟨group, ?_, ?_⟩
  · rw [stopped_eq_release h]
    exact hsent
  · have hnone : (Outlet.sendAll r.heard.handover
        r.heard.detector.player.emitter.release.2).2 = none := h.released
    rw [hnone] at hrefused
    simpa [refusedIn] using hrefused.symm

theorem final_eq (r : Ending ι) :
    r.final = (r.drains.map Action.take).foldl LiveMidi.act r.stopped := by
  rw [final, LiveMidi.session, List.foldl_append]
  rfl

theorem offers_drains (s : LiveMidi (Handover ι)) (drains : List ℕ) :
    ((drains.map Action.take).foldl LiveMidi.act s).handover.offers =
      s.handover.offers := by
  induction drains generalizing s with
  | nil => rfl
  | cons count rest ih =>
    exact (ih _).trans (s.handover.offers_takeMany count)

/-- What has been delivered in the end is what the queue has accepted. -/
theorem delivered_eq {r : Ending ι} (h : r.Clean) :
    r.delivered = accepted r.stopped.handover.offers := by
  have hsound := (agrees_session r.emitter r.capacity r.instrument
    (r.earlier ++ .callback r.pace r.samples ::
      r.drains.map .take)).sound.passed
  change r.final.handover.taken ++ r.final.handover.queue.toList =
    accepted r.final.handover.offers at hsound
  rw [h.drained, List.append_nil] at hsound
  rw [delivered, hsound, final_eq, offers_drains]

/-- In the end no note is open for an instrument that has been sent all
events. -/
theorem follows_stopped {r : Ending ι} (h : r.Clean) {quantizer : Quantizer}
    {settings : EmitterSettings}
    (hsettings : Emitter.ofSettings quantizer settings = .ok r.emitter) :
    followAll settings.channel none (r.stopped.handover.offers.map Prod.fst) =
      some none := by
  obtain ⟨hfault, rfl, hgate⟩ := Midi.ofSettings_ok hsettings
  have hagrees : Agrees r.stopped _ :=
    (agrees_session r.emitter r.capacity r.instrument r.earlier).act
      (.callback r.pace r.samples)
  have hstep :=
    (inStep_session hfault hgate (r.earlier.filterMap Action.input?)).step
      hfault
    (.buffer r.samples)
  have hsilent : r.stopped.detector.player.emitter.gate.sounding = none := by
    rw [stopped_eq_release h]
    rfl
  have hemitter := congrArg (fun e : Emitter => e.gate.sounding) hagrees.emitter
  rw [hagrees.offered]
  refine hstep.follows.trans (congrArg some ?_)
  exact hemitter.symm.trans hsilent

end Ending

/-! ## Hanging notes -/

/-- Every note that starts is ended later. -/
def NoneHangs (events : List Event) : Prop :=
  ∀ channel note velocity before after,
    events = before ++ .noteOn channel note velocity :: after →
      ∃ w, .noteOff channel note w ∈ after

/-- The `before` events are followed by the start of a note, and the next note
event offered is its end, for which there was no room. -/
def EndRefused (offers : List (Event × Bool)) (before : List Event)
    (channel note velocity : UInt8) : Prop :=
  ∃ first between w later,
    offers = first ++ (.noteOn channel note velocity, true) ::
      (between ++ (.noteOff channel note w, false) :: later) ∧
    accepted first = before ∧ ∀ offer ∈ between, offer.1.isNote = false

/-- An accepted event is found among the offers, between those accepted before
and those accepted after it. -/
theorem exists_offer_of_accepted {offers : List (Event × Bool)}
    {before after : List Event} {event : Event}
    (h : accepted offers = before ++ event :: after) :
    ∃ first rest, offers = first ++ (event, true) :: rest ∧
      accepted first = before ∧
      accepted rest = after := by
  induction offers generalizing before with
  | nil =>
    cases before <;> cases h
  | cons offer offers ih =>
    rcases offer with ⟨offered, _ | _⟩
    · obtain ⟨first, rest, rfl, hfirst, hrest⟩ := ih h
      exact ⟨(offered, false) :: first, rest, rfl, hfirst, hrest⟩
    · change offered :: accepted offers = _ at h
      cases before with
      | nil =>
        obtain ⟨rfl, rfl⟩ := List.cons.inj h
        exact ⟨[], offers, rfl, rfl, rfl⟩
      | cons head before =>
        obtain ⟨rfl, htail⟩ := List.cons.inj h
        obtain ⟨first, rest, rfl, rfl, hrest⟩ := ih htail
        exact ⟨(offered, true) :: first, rest, rfl, rfl, hrest⟩

theorem exists_tail_of_not_mem {α : Type} {xs ys as bs : List α} {y : α}
    (h : xs ++ y :: ys = as ++ bs) (hy : y ∉ bs) :
    ∃ rest, as = xs ++ y :: rest := by
  rcases List.append_eq_append_iff.mp h with
    ⟨middle, rfl, hmiddle⟩ | ⟨middle, rfl, rfl⟩
  · cases middle with
    | nil =>
      rw [List.nil_append] at hmiddle
      exact absurd (hmiddle ▸ List.mem_cons_self) hy
    | cons z rest =>
      obtain ⟨rfl, -⟩ := List.cons.inj hmiddle
      exact ⟨rest, rfl⟩
  · exact absurd (List.mem_append_right _ List.mem_cons_self) hy

/-- After a clean ending every note that has reached the instrument is ended
there, unless the queue had no room for its end when the emitter sent it, which
was before the final release.

An instrument that is sent all offers ends with no open note, so one of the
offers ends the note.  The release has been accepted, so an end that was refused
was offered before it. -/
theorem ended_or_end_refused {ι : Type} [Outlet ι String] {r : Ending ι}
    {quantizer : Quantizer} {settings : EmitterSettings}
    (hsettings : Emitter.ofSettings quantizer settings = .ok r.emitter)
    (hclean : r.Clean) :
    ∀ channel note velocity before after,
      r.delivered = before ++ .noteOn channel note velocity :: after →
        (∃ w, .noteOff channel note w ∈ after) ∨
          EndRefused r.heard.handover.offers before channel note velocity := by
  intro channel note velocity before after hstart
  have hfollows := Ending.follows_stopped hclean hsettings
  obtain ⟨group, hoffers, hgroup⟩ := Ending.offers_stopped hclean
  rw [Ending.delivered_eq hclean] at hstart
  obtain ⟨first, rest, hsplit, hfirst, hrest⟩ := exists_offer_of_accepted hstart
  rw [hsplit, List.map_append, List.map_cons] at hfollows
  obtain ⟨between, w, later, hlater, hbetween⟩ := exists_end_of_noteOn hfollows
  obtain ⟨betweenOffers, endOffers, rfl, hbetweenOffers, hend⟩ :=
    List.map_eq_append_iff.mp hlater
  obtain ⟨⟨ending, room⟩, laterOffers, rfl, hending, -⟩ :=
    List.map_eq_cons_iff.mp hend
  subst hending hbetweenOffers
  cases room with
  | true =>
    refine .inl ⟨w, ?_⟩
    rw [← hrest, accepted_append]
    exact List.mem_append_right _ List.mem_cons_self
  | false =>
    right
    have hnot :
        ((Event.noteOff channel note w, false) : Event × Bool) ∉ group :=
      fun hmem => Bool.noConfusion (hgroup _ hmem)
    rw [hsplit, ← List.cons_append, ← List.append_assoc] at hoffers
    obtain ⟨laterHeard, hheard⟩ := exists_tail_of_not_mem hoffers hnot
    refine ⟨first, betweenOffers, w, laterHeard, ?_, hfirst, ?_⟩
    · rw [hheard, List.append_assoc, List.cons_append]
    · intro offer hoffer
      exact hbetween offer.1 (List.mem_map_of_mem hoffer)

/-! ## A note that hangs -/

/-- An instrument that plays whatever it is sent. -/
structure Synthesizer where
  played : List Event

instance : Outlet Synthesizer String where
  send s event := (⟨s.played ++ [event]⟩, none)

/-- The whistle heard at a rate so low that two samples make a note. -/
def slowWhistle : Quantizer :=
  ⟨2640, .whistle, by decide +kernel⟩

/-- Settings under which every cycle with a note is loud enough. -/
def openGate : EmitterSettings :=
  { EmitterSettings.standard with gateThreshold := 0, windowSize := 1 }

/-- An emitter with these settings. -/
def openEmitter : Emitter :=
  ⟨slowWhistle, openGate,
    .silent openGate.windowSize.toNat (by decide) openGate.divisor,
    .silent openGate.gateThreshold, none, none⟩

theorem openEmitter_ok :
    Emitter.ofSettings slowWhistle openGate = .ok openEmitter :=
  Midi.ofSettings_eq_ok slowWhistle (by decide +kernel) (by decide) (by decide)

/-- The queue is full when the second note should end the first one.  It has
been emptied by the time of the release, which ends the second note. -/
def crowded : Ending Synthesizer where
  emitter := openEmitter
  capacity := 2
  instrument := ⟨[]⟩
  earlier := [.callback [] #[1, -1], .callback [] #[1, -1], .take 2,
    .command .stop]
  pace := []
  samples := #[]
  drains := [1]

theorem crowded_clean : crowded.Clean :=
  ⟨by decide +kernel, by decide +kernel, by decide +kernel⟩

theorem crowded_delivered :
    crowded.delivered =
      [.controlChange 0 11 85, .noteOn 0 69 100, .noteOff 0 64 0] := by
  decide +kernel

/-- The first note hangs, although the release has been accepted. -/
theorem crowded_note_hangs :
    Emitter.ofSettings slowWhistle openGate = .ok crowded.emitter ∧
      crowded.Clean ∧
      ¬ NoneHangs crowded.delivered := by
  refine ⟨openEmitter_ok, crowded_clean, fun hnone => ?_⟩
  obtain ⟨w, hmem⟩ :=
    hnone 0 69 100 [.controlChange 0 11 85] [.noteOff 0 64 0] crowded_delivered
  simp at hmem

/-- The end that the first note lacks was refused. -/
theorem crowded_end_refused :
    EndRefused crowded.heard.handover.offers [.controlChange 0 11 85]
      0 69 100 := by
  rcases ended_or_end_refused openEmitter_ok crowded_clean 0 69 100
    [.controlChange 0 11 85] [.noteOff 0 64 0] crowded_delivered with
    ⟨w, hmem⟩ | hrefused
  · simp at hmem
  · exact hrefused

end PitchFollower.Session
