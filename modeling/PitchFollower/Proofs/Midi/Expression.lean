import Mathlib.Data.List.Chain
import PitchFollower.Proofs.Midi.Wire

/-!
# Expression and display

The loudness of an emitter is kept in its window, reported by its gate when it
changes, and published for a display.  This module shows that the three agree
after every call: an instrument that is sent all events holds the loudness of
the last cycle, it is told a change before the notes that the same cycle starts,
and a display shows the note and the loudness that the events have left behind.
-/

namespace PitchFollower.Midi

/-! ## Control changes -/

/-- The value of a control change. -/
def Event.change? : Event → Option UInt8
  | .controlChange _ _ value => some value
  | .noteOn .. | .noteOff .. => none

/-- The values of all control changes among some events. -/
def changes (events : List Event) : List UInt8 :=
  events.filterMap Event.change?

/-- Every note starts with the value of the last control change before it, or
with the least velocity that starts a note. -/
def StartsAtExpression (events : List Event) : Prop :=
  ∀ channel note velocity before after,
    events = before ++ .noteOn channel note velocity :: after →
      ∃ value, (changes before).getLast? = some value ∧ velocity = max value 1

theorem changes_append (events later : List Event) :
    changes (events ++ later) = changes events ++ changes later :=
  List.filterMap_append

/-- What a gate asks for is sent as a change, if any, and note events behind
it. -/
theorem messages_eq (e : Emitter) (velocity : UInt8) (asked : GateEvents) :
    e.messages velocity asked =
      (asked.expression.map
          (.controlChange e.settings.channel e.settings.controller)).toList ++
        ((asked.noteOff.map (endOf e)).toList ++
          (asked.noteOn.map
            (.noteOn e.settings.channel · velocity)).toList) := by
  rcases asked with ⟨_ | _, _ | _, _ | _⟩ <;> rfl

/-- A cycle is answered with a change at most, and note events behind it. -/
theorem exists_messages_split (e : Emitter) (velocity : UInt8)
    (asked : GateEvents) :
    ∃ change notes, e.messages velocity asked = change ++ notes ∧
      change.length ≤ 1 ∧
      (∀ event ∈ change, event.isNote = false) ∧ ∀ event ∈ notes,
      event.isNote = true := by
  refine ⟨_, _, messages_eq e velocity asked, Option.length_toList_le,
    fun event hevent => ?_, fun event hevent => ?_⟩
  · rw [Option.mem_toList, Option.map_eq_some_iff] at hevent
    obtain ⟨_, -, rfl⟩ := hevent
    rfl
  · rw [List.mem_append, Option.mem_toList, Option.mem_toList,
      Option.map_eq_some_iff, Option.map_eq_some_iff] at hevent
    obtain ⟨_, -, rfl⟩ | ⟨_, -, rfl⟩ := hevent
    · rfl
    · rfl

theorem changes_messages (e : Emitter) (velocity : UInt8) (asked : GateEvents) :
    changes (e.messages velocity asked) = asked.expression.toList := by
  rcases asked with ⟨_ | _, _ | _, _ | _⟩ <;> rfl

/-! ## The emitter -/

/-- What the events sent so far have left behind is what the emitter takes to be
the loudness.  Before the first cycle the window is silent and nothing has been
reported. -/
structure Mirrors (sent : List Event) (now : Emitter) : Prop where
  reported : now.gate.lastLoudness = (changes sent).getLast?
  loudness : now.window.loudness = (changes sent).getLast?.getD 0
  news : (changes sent).IsChain (· ≠ ·)

section Steps

variable {now : Emitter} {sent : List Event}

/-- Reporting a loudness that is news. -/
theorem Mirrors.getLast?_append_news (h : Mirrors sent now) (loudness : UInt8) :
    (changes sent ++ (now.gate.news loudness).toList).getLast? =
      some loudness := by
  unfold NoteGate.news
  split_ifs with hsame
  · rw [Option.toList_none, List.append_nil, ← h.reported, hsame]
  · rw [Option.toList_some, List.getLast?_concat]

/-- A cycle asks for its loudness, if it is news, and for notes. -/
theorem exists_onCycle_asked (now : Emitter) (cycle : Cycle) :
    ∃ asked, asked.expression =
      now.gate.news (now.window.update cycle.energy).loudness ∧
      (now.onCycle cycle).2 =
        now.messages (now.velocityAt (now.window.update cycle.energy).loudness)
          asked :=
  ⟨_, now.gate.onCycle_expression _ _, onCycle_snd now cycle⟩

theorem changes_onCycle (now : Emitter) (sent : List Event) (cycle : Cycle) :
    changes (sent ++ (now.onCycle cycle).2) =
      changes sent ++
      (now.gate.news (now.window.update cycle.energy).loudness).toList := by
  obtain ⟨asked, hasked, hevents⟩ := exists_onCycle_asked now cycle
  rw [changes_append, hevents, changes_messages, hasked]

theorem Mirrors.onCycle (h : Mirrors sent now) (cycle : Cycle) :
    Mirrors (sent ++ (now.onCycle cycle).2) (now.onCycle cycle).1 := by
  have hlast := h.getLast?_append_news (now.window.update cycle.energy).loudness
  rw [← changes_onCycle now sent cycle] at hlast
  refine ⟨?_, ?_, ?_⟩
  · rw [hlast]
    exact now.gate.onCycle_lastLoudness _ _
  · rw [hlast]
    rfl
  · rw [changes_onCycle now sent cycle, List.isChain_append]
    refine ⟨h.news, ?_, ?_⟩
    · unfold NoteGate.news
      split_ifs
      · exact List.IsChain.nil
      · exact List.isChain_singleton _
    · intro value hvalue reported hreported
      rw [← h.reported] at hvalue
      unfold NoteGate.news at hreported
      split_ifs at hreported with hsame
      · cases hreported
      · cases hreported
        rintro rfl
        exact hsame hvalue

theorem changes_release (now : Emitter) : changes now.release.2 = [] := by
  change changes (now.gate.sounding.map (endOf now)).toList = []
  cases now.gate.sounding <;> rfl

theorem Mirrors.answer (h : Mirrors sent now) (call : Call) :
    Mirrors (sent ++ (now.answer call).2) (now.answer call).1 := by
  cases call with
  | cycle cycle => exact h.onCycle cycle
  | release =>
    have hchanges : changes (sent ++ now.release.2) = changes sent := by
      rw [changes_append, changes_release, List.append_nil]
    refine ⟨?_, ?_, ?_⟩
    · exact h.reported.trans (congrArg List.getLast? hchanges.symm)
    · exact h.loudness.trans
        (congrArg (fun l => l.getLast?.getD 0) hchanges.symm)
    · exact hchanges.symm ▸ h.news

end Steps

/-! ## Velocities -/

theorem StartsAtExpression.append {events later : List Event}
    (h : StartsAtExpression events)
    (hlater : ∀ channel note velocity before after, later =
      before ++ .noteOn channel note velocity :: after → ∃ value,
      (changes (events ++ before)).getLast? = some value ∧
      velocity = max value 1) :
    StartsAtExpression (events ++ later) := by
  intro channel note velocity before after heq
  obtain ⟨between, rfl, hsplit⟩ | ⟨between, rfl, hsplit⟩ :=
    List.append_eq_append_iff.mp heq
  · exact hlater channel note velocity between after hsplit
  · cases between with
    | nil =>
      have hstart := hlater channel note velocity [] after hsplit.symm
      rwa [List.append_nil, List.append_nil] at hstart
    | cons event between =>
      obtain ⟨rfl, -⟩ := List.cons.inj hsplit
      exact h channel note velocity before between rfl

/-- A note is the last event of its cycle, so the change of the cycle, if there
is one, lies before it. -/
theorem messages_noteOn {e : Emitter} {velocity : UInt8} {asked : GateEvents}
    {channel note started : UInt8} {before after : List Event}
    (h : e.messages velocity asked = before ++ .noteOn channel note started ::
      after) :
    started = velocity ∧ changes before = asked.expression.toList := by
  rw [messages_eq, ← List.append_assoc] at h
  set others :=
    (asked.expression.map
        (.controlChange e.settings.channel e.settings.controller)).toList ++
      (asked.noteOff.map (endOf e)).toList with hothers
  have hnone : .noteOn channel note started ∉ others := by
    simp [hothers, endOf]
  cases hon : asked.noteOn with
  | none =>
    rw [hon, Option.map_none, Option.toList_none, List.append_nil] at h
    rw [h] at hnone
    exact absurd List.mem_append_cons_self hnone
  | some other =>
    rw [hon, Option.map_some, Option.toList_some] at h
    rcases List.eq_nil_or_concat after with rfl | ⟨rest, last, rfl⟩
    · obtain ⟨rfl, hlast⟩ := List.append_inj' h rfl
      cases hlast
      refine ⟨rfl, ?_⟩
      rcases asked with ⟨_ | _, _ | _, _⟩ <;> rfl
    · rw [List.concat_eq_append, ← List.cons_append, ← List.append_assoc] at h
      rw [(List.append_inj' h rfl).1] at hnone
      exact absurd List.mem_append_cons_self hnone

/-- With the loudness for a velocity, the notes of a cycle start at the change
that precedes them. -/
theorem Mirrors.startsAtExpression_answer {now : Emitter} {sent : List Event}
    (h : Mirrors sent now) (hvelocity : now.settings.velocity = .loudness)
    (hsent : StartsAtExpression sent) (call : Call) :
    StartsAtExpression (sent ++ (now.answer call).2) := by
  refine hsent.append fun channel note velocity before after heq => ?_
  cases call with
  | cycle cycle =>
    obtain ⟨asked, hasked, hevents⟩ := exists_onCycle_asked now cycle
    obtain ⟨rfl, hbefore⟩ := messages_noteOn (hevents.symm.trans heq)
    refine ⟨(now.window.update cycle.energy).loudness, ?_, ?_⟩
    · rw [changes_append, hbefore, hasked, h.getLast?_append_news]
    · rw [Emitter.velocityAt, hvelocity]
  | release =>
    have hended : .noteOn channel note velocity ∈
        (now.gate.sounding.map (endOf now)).toList := by
      change (now.gate.sounding.map (endOf now)).toList = _ at heq
      rw [heq]
      exact List.mem_append_cons_self
    rw [Option.mem_toList, Option.map_eq_some_iff] at hended
    obtain ⟨_, -, hend⟩ := hended
    cases hend

/-! ## The display -/

/-- The display of an emitter, which is there, shows the sounding note and the
loudness. -/
def Emitter.Shows (now : Emitter) : Prop :=
  now.monitor = some (.showing now.gate.sounding now.window.loudness)

theorem Emitter.Shows.answer {now : Emitter} (h : now.Shows) (call : Call) :
    (now.answer call).1.Shows := by
  have hpublish : ∀ note loudness, now.monitor.map (fun _ =>
    Monitor.showing note loudness) =
      some (.showing note loudness) := fun _ _ => by rw [h, Option.map_some]
  cases call with
  | cycle cycle => exact hpublish _ _
  | release => exact hpublish _ _

theorem Emitter.Shows.after {e : Emitter} (h : e.Shows) (past : List Call) :
    (e.after past).Shows := by
  induction past with
  | nil => exact h
  | cons call past ih => exact ih.answer call

/-- No note is taken for the byte that stands for none. -/
theorem Monitor.note_showing {note : Option UInt8} (h : ∀ n ∈ note, n ≤ 127)
    (loudness : UInt8) : (Monitor.showing note loudness).note = note := by
  cases note with
  | none => rfl
  | some n =>
    refine if_neg ?_
    rintro rfl
    exact absurd (h _ rfl) (by decide)

/-! ## Checked settings -/

/-- A new emitter has sent nothing, and its window is silent. -/
theorem mirrors_of_ofSettings {quantizer : Quantizer}
    {settings : EmitterSettings} {e : Emitter}
    (h : Emitter.ofSettings quantizer settings = .ok e)
    (monitor : Option Monitor) : Mirrors [] { e with monitor } := by
  obtain ⟨-, window, hwindow, rfl⟩ := ofSettings_eq h
  obtain ⟨-, _, rfl⟩ := LoudnessWindow.eq_silent_of_ofOptions hwindow
  exact ⟨rfl, rfl, List.IsChain.nil⟩

section Runs

variable {σ ε : Type} [Outlet σ ε]

theorem mirrors_after {e : Emitter} (h : Mirrors [] e) (outlet : σ)
    (past : List Call) :
    Mirrors
      ((⟨e, ⟨outlet, []⟩⟩ : Transmitter (Witnessed σ)).after
        past).outlet.offered
      (e.after past) := by
  induction past with
  | nil => exact h
  | cons call past ih =>
    rw [Transmitter.offered_after_cons]
    exact ih.answer call

theorem startsAtExpression_after {e : Emitter} (h : Mirrors [] e)
    (hfresh : e.gate = .silent e.settings.gateThreshold)
    (hvelocity : e.settings.velocity = .loudness) (outlet : σ)
    (past : List Call) :
    StartsAtExpression
      ((⟨e, ⟨outlet, []⟩⟩ : Transmitter (Witnessed σ)).after
        past).outlet.offered := by
  induction past with
  | nil =>
    intro channel note velocity before after hnil
    cases before <;> cases hnil
  | cons call past ih =>
    rw [Transmitter.offered_after_cons]
    refine (mirrors_after h outlet past).startsAtExpression_answer ?_ ih call
    rw [(remembers_after hfresh past).settings, hvelocity]

/-- The events of an emitter with checked settings mirror its loudness, whatever
it has been asked for: two control changes in a row have different values, also
with notes and releases between them; after a cycle the last one has the value
of the loudness; it comes before the note events of its cycle; and if notes
start at the loudness, each one starts at the last control change before it, or
with the least velocity.  No outlet has an influence on that. -/
theorem expression_mirrors_loudness {quantizer : Quantizer}
    {settings : EmitterSettings} {e : Emitter}
    (h : Emitter.ofSettings quantizer settings = .ok e)
    (monitor : Option Monitor) (outlet : σ) (past : List Call) :
    let t := Transmitter.after
      (⟨{ e with monitor }, ⟨outlet, []⟩⟩ : Transmitter (Witnessed σ))
    (changes (t past).outlet.offered).IsChain (· ≠ ·) ∧
      (∀ cycle, (changes (t (.cycle cycle :: past)).outlet.offered).getLast? =
        some (t (.cycle cycle :: past)).emitter.window.loudness) ∧
      (∀ cycle, ∃ change notes,
        (t (.cycle cycle :: past)).outlet.offered =
          (t past).outlet.offered ++ (change ++ notes) ∧
          change.length ≤ 1 ∧ (∀ event ∈ change, event.isNote = false) ∧
          ∀ event ∈ notes, event.isNote = true) ∧
      (settings.velocity = .loudness →
        StartsAtExpression (t past).outlet.offered) := by
  have hfresh := mirrors_of_ofSettings h monitor
  obtain ⟨-, rfl, hgate⟩ := ofSettings_ok h
  intro t
  have hmirrors := mirrors_after hfresh outlet
  refine ⟨(hmirrors past).news, fun cycle => ?_, fun cycle => ?_,
    fun hvelocity => ?_⟩
  · have hreported := (hmirrors (.cycle cycle :: past)).reported
    rw [← hreported, Transmitter.emitter_after]
    exact NoteGate.onCycle_lastLoudness _ _ _
  · obtain ⟨change, notes, hsplit, hsorted⟩ := exists_messages_split _ _ _
    exact ⟨change, notes, (Transmitter.offered_after_cons _ _ _).trans
      (congrArg ((t past).outlet.offered ++ ·) hsplit), hsorted⟩
  · exact startsAtExpression_after hfresh hgate hvelocity outlet past

theorem extreme_expression_mirrors :
    ∃ e, Emitter.ofSettings ⟨48000, farApart, isPositive_rate⟩ extreme = .ok e ∧
      extreme.velocity = .loudness ∧
      let t := Transmitter.after
        (⟨{ e with monitor := none }, ⟨EventLog.empty, []⟩⟩ :
          Transmitter (Witnessed EventLog))
      let past := [.cycle ⟨60, 3⟩, .release, .cycle ⟨60, 1⟩]
      changes (t past).outlet.offered = [64, 127] ∧
        (changes (t past).outlet.offered).IsChain (· ≠ ·) ∧
        (changes (t (.cycle ⟨60, 1⟩ :: past)).outlet.offered).getLast? =
          some (t (.cycle ⟨60, 1⟩ :: past)).emitter.window.loudness ∧
        StartsAtExpression (t past).outlet.offered := by
  have he := ofSettings_eq_ok ⟨48000, farApart, isPositive_rate⟩
    (show extreme.fault? = none by decide +kernel) (by decide) (by decide)
  obtain ⟨hnews, hlast, -, hstarts⟩ :=
    expression_mirrors_loudness he none EventLog.empty
      [.cycle ⟨60, 3⟩, .release, .cycle ⟨60, 1⟩]
  exact ⟨_, he, rfl, by decide +kernel, hnews, hlast ⟨60, 1⟩, hstarts rfl⟩

/-- A display that is there from the beginning shows, after every call, the note
that an instrument has been left to play by all events offered so far, and the
value of the last control change among them, or zero.  That holds for scales of
any note numbers and for outlets that refuse events. -/
theorem display_agrees_with_events {quantizer : Quantizer}
    {settings : EmitterSettings} {e : Emitter}
    (h : Emitter.ofSettings quantizer settings = .ok e) (outlet : σ)
    (past : List Call) :
    let t := Transmitter.after
      (⟨e.withMonitor, ⟨outlet, []⟩⟩ : Transmitter (Witnessed σ)) past
    ∃ shown, t.emitter.monitor = some shown ∧
      followAll settings.channel none t.outlet.offered = some shown.note ∧
      shown.loudness = (changes t.outlet.offered).getLast?.getD 0 := by
  have hfresh := mirrors_of_ofSettings h (some .blank)
  have hbounded := (bounded_of_ofSettings h (some .blank)).after past
  have hloudness := (mirrors_after hfresh outlet past).loudness
  obtain ⟨hfault, rfl, hgate⟩ := ofSettings_ok h
  intro t
  have hemitter : e.withMonitor.after past = t.emitter :=
    (Transmitter.emitter_after
      (⟨e.withMonitor, ⟨outlet, []⟩⟩ : Transmitter (Witnessed σ)) past).symm
  change (e.withMonitor.after past).Bounded at hbounded
  change (e.withMonitor.after past).window.loudness = _ at hloudness
  have hblank : e.withMonitor.Shows := by
    rw [Emitter.Shows, Emitter.withMonitor, hgate, hfresh.loudness]
    rfl
  have hshows := hblank.after past
  rw [hemitter] at hbounded hloudness hshows
  refine ⟨_, hshows, ?_, hloudness⟩
  rw [Monitor.note_showing hbounded.sounding]
  exact followAll_after (e := e.withMonitor) hfault hgate outlet past

/-- The note that would take the byte for no note without its transposition is
shown. -/
theorem extreme_display_agrees :
    ∃ e, Emitter.ofSettings ⟨48000, farApart, isPositive_rate⟩ extreme = .ok e ∧
      let t := Transmitter.after (⟨e.withMonitor, ⟨EventLog.empty, []⟩⟩ :
        Transmitter (Witnessed EventLog)) [.cycle ⟨60, 3⟩]
      ∃ shown, t.emitter.monitor = some shown ∧
        followAll extreme.channel none t.outlet.offered = some shown.note ∧
        shown.loudness = (changes t.outlet.offered).getLast?.getD 0 ∧
        shown = ⟨127, 127⟩ := by
  have he := ofSettings_eq_ok ⟨48000, farApart, isPositive_rate⟩
    (show extreme.fault? = none by decide +kernel) (by decide) (by decide)
  obtain ⟨shown, hshown, hnote, hloudness⟩ :=
    display_agrees_with_events he EventLog.empty [.cycle ⟨60, 3⟩]
  refine ⟨_, he, shown, hshown, hnote, hloudness, ?_⟩
  exact (Option.some_inj.mp (hshown.symm.trans (by decide +kernel)))

end Runs

end PitchFollower.Midi
