import Mathlib.Tactic.Push
import Mathlib.Tactic.SplitIfs
import PitchFollower.Proofs.Midi.Delivery

/-!
# The notes of an emitter

The sounding note depends on a cycle that may lie arbitrarily far back.  This
module defines it by looking back over the history of calls, and shows that the
note events are those that keep an instrument playing exactly this note.
Histories have the latest call first.
-/

namespace PitchFollower.Midi

/-! ## Notes seen from the whole history -/

section History

variable (e : Emitter)

/-- The loudness window after a history. -/
def windowAfter : List Call → LoudnessWindow
  | [] => e.window
  | .cycle cycle :: past => (windowAfter past).update cycle.energy
  | .release :: past => windowAfter past

/-- The note of a cycle, if the cycle qualifies: it has a note of the scale,
which is a MIDI note after transposition, and the loudness after the cycle
reaches the threshold. -/
def qualifyingNote? (past : List Call) (cycle : Cycle) : Option UInt8 :=
  (e.quantizer.note? cycle.period).bind fun tone =>
    let note : Int := tone.toNat + e.settings.transpose.toInt
    let loudness := (windowAfter e (.cycle cycle :: past)).loudness
    if (0 ≤ note ∧ note ≤ 127) ∧ e.settings.gateThreshold ≤ loudness then
      some note.toNat.toUInt8
    else none

/-- The note of the last qualifying cycle since the last release. -/
def lastNote? : List Call → Option UInt8
  | [] => none
  | .cycle cycle :: past => (qualifyingNote? e past cycle).or (lastNote? past)
  | .release :: _ => none

/-- The end of a note on the channel of the emitter. -/
def endOf (note : UInt8) : Event :=
  .noteOff e.settings.channel note 0

/-- The note events that a call is due after a history. -/
def noteEvents (past : List Call) : Call → List Event
  | .cycle cycle =>
    match qualifyingNote? e past cycle with
    | none => []
    | some note =>
      if lastNote? e past = some note then []
      else
        ((lastNote? e past).map (endOf e)).toList ++
          [.noteOn e.settings.channel note
            (e.velocityAt (windowAfter e (.cycle cycle :: past)).loudness)]
  | .release => ((lastNote? e past).map (endOf e)).toList

/-- The note events that all calls of a history are due. -/
def allNoteEvents : List Call → List Event
  | [] => []
  | call :: past => allNoteEvents past ++ noteEvents e past call

end History

/-- Whether an event starts or ends a note. -/
def Event.isNote : Event → Bool
  | .controlChange .. => false
  | .noteOn .. | .noteOff .. => true

/-- An instrument that plays one note at a time.  It is out of step if a note
starts while another one is open, or with the velocity zero, or if a note ends
that is not open. -/
def follow (channel : UInt8) (opened : Option UInt8) :
    Event → Option (Option UInt8)
  | .noteOn c note velocity =>
    if c = channel ∧ velocity ≠ 0 ∧
      opened = none then some (some note) else none
  | .noteOff c note _ =>
    if c = channel ∧ opened = some note then some none else none
  | .controlChange .. => some opened

/-- The open note after a list of events, if no event is out of step. -/
def followAll (channel : UInt8) :
    Option UInt8 → List Event → Option (Option UInt8)
  | opened, [] => some opened
  | opened, event :: rest =>
    (follow channel opened event).bind (followAll channel · rest)

theorem followAll_append
    (channel : UInt8) (opened : Option UInt8) (events later : List Event) :
    followAll channel opened (events ++ later) =
      (followAll channel opened events).bind (followAll channel · later) := by
  induction events generalizing opened with
  | nil => rfl
  | cons event rest ih =>
    simp only [List.cons_append, followAll, Option.bind_assoc, ih]

/-- Only note events matter to the open note. -/
theorem followAll_filter (channel : UInt8) (opened : Option UInt8)
    (events : List Event) :
    followAll channel opened (events.filter Event.isNote) =
      followAll channel opened events := by
  induction events generalizing opened with
  | nil => rfl
  | cons event rest ih =>
    cases event with
    | controlChange => exact ih opened
    | noteOn | noteOff =>
      simp only [List.filter_cons, Event.isNote, if_true, followAll, ih]

/-! ## The gate -/

namespace NoteGate

/-- The loudness that is reported, if it is news. -/
def news (g : NoteGate) (loudness : UInt8) : Option UInt8 :=
  if g.lastLoudness = some loudness then none else some loudness

variable {g : NoteGate} {note : Option UInt8} {loudness audible : UInt8}

theorem onCycle_of_kept
    (h : ∀ audible ∈ g.audibleNote? note loudness, g.sounding = some audible) :
    g.onCycle note loudness =
      ({ g with lastLoudness := some loudness }, ⟨g.news loudness, none,
        none⟩) := by
  cases haudible : g.audibleNote? note loudness with
  | none => simp only [onCycle, haudible, news]
  | some audible =>
    simp only [onCycle, haudible, news, if_pos (h audible haudible)]

theorem onCycle_of_other (h : g.audibleNote? note loudness = some audible)
    (hother : g.sounding ≠ some audible) :
    g.onCycle note loudness =
      ({ g with lastLoudness := some loudness, sounding := some audible },
        ⟨g.news loudness, g.sounding, some audible⟩) := by
  simp only [onCycle, h, news, if_neg hother]

/-- A cycle keeps the note, or there is an audible note that takes its place. -/
theorem onCycle_cases (g : NoteGate) (note : Option UInt8) (loudness : UInt8) :
    ((∀ audible ∈ g.audibleNote? note loudness, g.sounding = some audible) ∧
      g.onCycle note loudness =
        ({ g with lastLoudness := some loudness }, ⟨g.news loudness, none,
          none⟩)) ∨
    ∃ audible, g.audibleNote? note loudness = some audible ∧
      g.onCycle note loudness =
        ({ g with lastLoudness := some loudness, sounding := some audible },
          ⟨g.news loudness, g.sounding, some audible⟩) := by
  by_cases h : ∀ audible ∈ g.audibleNote? note loudness,
    g.sounding = some audible
  · exact .inl ⟨h, onCycle_of_kept h⟩
  · push Not at h
    obtain ⟨audible, haudible, hother⟩ := h
    exact .inr ⟨audible, haudible, onCycle_of_other haudible hother⟩

section

variable (g : NoteGate) (note : Option UInt8) (loudness : UInt8)

theorem onCycle_threshold :
    (g.onCycle note loudness).1.threshold = g.threshold := by
  obtain ⟨-, heq⟩ | ⟨_, -, heq⟩ := g.onCycle_cases note loudness <;> rw [heq]

theorem onCycle_lastLoudness :
    (g.onCycle note loudness).1.lastLoudness = some loudness := by
  obtain ⟨-, heq⟩ | ⟨_, -, heq⟩ := g.onCycle_cases note loudness <;> rw [heq]

theorem onCycle_expression :
    (g.onCycle note loudness).2.expression = g.news loudness := by
  obtain ⟨-, heq⟩ | ⟨_, -, heq⟩ := g.onCycle_cases note loudness <;> rw [heq]

theorem onCycle_sounding :
    (g.onCycle note loudness).1.sounding =
      (g.audibleNote? note loudness).or g.sounding := by
  obtain ⟨hkept, heq⟩ | ⟨audible, haudible, heq⟩ :=
    g.onCycle_cases note loudness
  · rw [heq]
    cases haudible : g.audibleNote? note loudness with
    | none => rfl
    | some audible => exact hkept audible haudible
  · rw [heq, haudible]
    rfl

end

end NoteGate

/-! ## The emitter -/

/-- What an emitter has kept of a history that began with another emitter. -/
structure Remembers (e : Emitter) (past : List Call) (now : Emitter) :
    Prop where
  quantizer : now.quantizer = e.quantizer
  settings : now.settings = e.settings
  threshold : now.gate.threshold = e.settings.gateThreshold
  window : now.window = windowAfter e past
  sounding : now.gate.sounding = lastNote? e past

section Steps

variable {e now : Emitter} {past : List Call}

theorem Remembers.audibleNote? (h : Remembers e past now) (cycle : Cycle) :
    now.gate.audibleNote?
        ((now.quantizer.note? cycle.period).bind now.transposed?)
        (now.window.update cycle.energy).loudness =
      qualifyingNote? e past cycle := by
  unfold NoteGate.audibleNote? qualifyingNote?
  rw [h.threshold, h.quantizer, h.window]
  cases e.quantizer.note? cycle.period with
  | none => simp only [Option.bind_none, ite_self]
  | some tone =>
    simp only [Option.bind_some, Emitter.transposed?, h.settings, windowAfter]
    by_cases hloud :
        e.settings.gateThreshold ≤
          ((windowAfter e past).update cycle.energy).loudness
    · simp only [hloud, and_true, if_true]
    · simp only [hloud, and_false, if_false]

/-- The events of a cycle, by what the gate asks for. -/
theorem onCycle_snd (e : Emitter) (cycle : Cycle) :
    (e.onCycle cycle).2 =
      e.messages (e.velocityAt (e.window.update cycle.energy).loudness)
        (e.gate.onCycle ((e.quantizer.note? cycle.period).bind e.transposed?)
          (e.window.update cycle.energy).loudness).2 :=
  rfl

theorem filter_messages (e : Emitter) (velocity : UInt8) (asked : GateEvents) :
    (e.messages velocity asked).filter Event.isNote =
      (asked.noteOff.map (endOf e)).toList ++
        (asked.noteOn.map (.noteOn e.settings.channel · velocity)).toList := by
  rcases asked with ⟨_ | _, _ | _, _ | _⟩ <;> rfl

theorem Remembers.onCycle_notes (h : Remembers e past now) (cycle : Cycle) :
    (now.onCycle cycle).2.filter Event.isNote =
      noteEvents e past (.cycle cycle) := by
  have haudible := h.audibleNote? cycle
  have hwindow : now.window.update cycle.energy =
      windowAfter e (.cycle cycle :: past) := by
    rw [h.window, windowAfter]
  simp only [Emitter.onCycle, filter_messages, noteEvents]
  cases hnote : qualifyingNote? e past cycle with
  | none =>
    rw [hnote] at haudible
    rw [NoteGate.onCycle_of_kept (by simp [haudible])]
    rfl
  | some note =>
    rw [hnote] at haudible
    by_cases hsame : lastNote? e past = some note
    · rw [NoteGate.onCycle_of_kept (by simp [haudible, h.sounding, hsame])]
      simp only [if_pos hsame, Option.map_none, Option.toList_none,
        List.append_nil]
    · rw [NoteGate.onCycle_of_other haudible (h.sounding ▸ hsame)]
      have hend : endOf now = endOf e := by
        funext note
        rw [endOf, h.settings, endOf]
      simp only [if_neg hsame, hend, h.settings, h.sounding, hwindow,
        Emitter.velocityAt, Option.map_some, Option.toList_some]

theorem Remembers.release_notes (h : Remembers e past now) :
    now.release.2.filter Event.isNote = noteEvents e past .release := by
  simp only [Emitter.release, NoteGate.release, noteEvents, h.sounding,
    h.settings]
  cases lastNote? e past <;> rfl

/-- A call adds itself to the history, and is answered with the events due. -/
theorem Remembers.answer (h : Remembers e past now) (call : Call) :
    Remembers e (call :: past) (now.answer call).1 ∧
      (now.answer call).2.filter Event.isNote = noteEvents e past call := by
  cases call with
  | release =>
    exact ⟨⟨h.quantizer, h.settings, h.threshold, h.window, rfl⟩,
      h.release_notes⟩
  | cycle cycle =>
    refine ⟨⟨h.quantizer, h.settings, ?_, ?_, ?_⟩, h.onCycle_notes cycle⟩
    · exact (NoteGate.onCycle_threshold _ _ _).trans h.threshold
    · rw [windowAfter, ← h.window]
      rfl
    · refine (NoteGate.onCycle_sounding _ _ _).trans ?_
      rw [h.audibleNote?, h.sounding, lastNote?]

theorem remembers_after
    (hfresh : e.gate = .silent e.settings.gateThreshold) (past : List Call) :
    Remembers e past (e.after past) := by
  induction past with
  | nil =>
    exact ⟨rfl, rfl, congrArg NoteGate.threshold hfresh, rfl,
      congrArg NoteGate.sounding hfresh⟩
  | cons call past ih => exact (ih.answer call).1

end Steps

/-! ## Checked settings -/

theorem LoudnessWindow.eq_silent_of_ofOptions {size : Nat} {divisor : Float32}
    {w : LoudnessWindow} (h : ofOptions size divisor = .ok w) :
    Single.IsPositive divisor ∧
      ∃ positive, w = silent size positive divisor := by
  unfold ofOptions at h
  split_ifs at h with hpositive hdivisor
  cases h
  exact ⟨hdivisor, hpositive, rfl⟩

theorem ofSettings_eq {quantizer : Quantizer} {settings : EmitterSettings}
    {e : Emitter} (h : Emitter.ofSettings quantizer settings = .ok e) :
    settings.fault? = none ∧ ∃ window,
      LoudnessWindow.ofOptions settings.windowSize.toNat settings.divisor =
        .ok window ∧
      e = ⟨quantizer, settings, window, .silent settings.gateThreshold, none,
        none⟩ := by
  unfold Emitter.ofSettings at h
  cases hfault : settings.fault? with
  | some fault =>
    rw [hfault] at h
    cases h
  | none =>
    rw [hfault] at h
    cases hwindow : LoudnessWindow.ofOptions settings.windowSize.toNat
      settings.divisor with
    | error fault =>
      rw [hwindow] at h
      cases h
    | ok window =>
      rw [hwindow] at h
      cases h
      exact ⟨rfl, window, rfl, rfl⟩

theorem ofSettings_ok
    {quantizer : Quantizer} {settings : EmitterSettings} {e : Emitter}
    (h : Emitter.ofSettings quantizer settings = .ok e) :
    settings.fault? = none ∧ e.settings = settings ∧
      e.gate = .silent settings.gateThreshold := by
  obtain ⟨hfault, window, -, rfl⟩ := ofSettings_eq h
  exact ⟨hfault, rfl, rfl⟩

/-- The check of the settings covers those of the window. -/
theorem EmitterSettings.window_of_fault? {s : EmitterSettings}
    (h : s.fault? = none) :
    0 < s.windowSize.toNat ∧ Single.IsPositive s.divisor := by
  have hwindow : EmitterSettings.fault?.windowFault? s = none := by
    unfold EmitterSettings.fault? at h
    split_ifs at h
    split at h
    · split_ifs at h
      exact h
    · exact h
  unfold EmitterSettings.fault?.windowFault? at hwindow
  split_ifs at hwindow with hzero hdivisor
  exact ⟨Nat.pos_of_ne_zero fun hsize => hzero (UInt64.toNat_inj.mp hsize),
    hdivisor⟩

/-- Settings that are accepted give an emitter if there is room for its
window. -/
theorem ofSettings_eq_ok (quantizer : Quantizer) {settings : EmitterSettings}
    (hfault : settings.fault? = none) (hsize : 0 < settings.windowSize.toNat)
    (hroom : HasRoom settings.windowSize.toNat LoudnessWindow.energyBytes) :
    Emitter.ofSettings quantizer settings =
      .ok ⟨quantizer, settings,
        .silent settings.windowSize.toNat hsize settings.divisor,
        .silent settings.gateThreshold, none, none⟩ := by
  have hdivisor := (EmitterSettings.window_of_fault? hfault).2
  simp only [Emitter.ofSettings, hfault, LoudnessWindow.ofOptions,
    dif_pos hsize, if_pos hdivisor, if_pos hroom]
  rfl

/-- A window for which there is no room is all that can be wrong with them. -/
theorem ofSettings_eq_error (quantizer : Quantizer) {settings : EmitterSettings}
    (hfault : settings.fault? = none)
    (hroom : ¬ HasRoom settings.windowSize.toNat LoudnessWindow.energyBytes) :
    Emitter.ofSettings quantizer settings = .error .bufferSize := by
  obtain ⟨hsize, hdivisor⟩ := EmitterSettings.window_of_fault? hfault
  simp only [Emitter.ofSettings, hfault, LoudnessWindow.ofOptions,
    dif_pos hsize, if_pos hdivisor, if_neg hroom]
  rfl

/-- No note starts with the velocity zero. -/
theorem velocityAt_ne_zero
    {e : Emitter} (h : e.settings.fault? = none) (loudness : UInt8) :
    e.velocityAt loudness ≠ 0 := by
  unfold Emitter.velocityAt
  unfold EmitterSettings.fault? at h
  cases hvelocity : e.settings.velocity with
  | fixed velocity =>
    rintro rfl
    simp only [hvelocity] at h
    split_ifs at h with hchannel hcontroller hthreshold hsilent
    exact hsilent (.inl trivial)
  | loudness =>
    change (if loudness ≤ 1 then 1 else loudness) ≠ 0
    split_ifs with hone
    · decide
    · rintro rfl
      exact hone (by decide)

/-! ## Whole histories -/

/-- The events due keep an instrument in step. -/
theorem followAll_noteEvents {e : Emitter} (h : e.settings.fault? = none)
    (past : List Call) (call : Call) :
    followAll e.settings.channel (lastNote? e past) (noteEvents e past call) =
      some (lastNote? e (call :: past)) := by
  cases call with
  | release =>
    rw [noteEvents, lastNote?]
    cases hlast : lastNote? e past with
    | none => rfl
    | some last => simp [followAll, follow, endOf]
  | cycle cycle =>
    rw [noteEvents, lastNote?]
    cases hnote : qualifyingNote? e past cycle with
    | none => rfl
    | some note =>
      by_cases hsame : lastNote? e past = some note
      · simp [hsame, followAll]
      · have hvelocity :=
          velocityAt_ne_zero h (windowAfter e (.cycle cycle :: past)).loudness
        simp only [if_neg hsame]
        cases lastNote? e past <;> simp [followAll, follow, endOf, hvelocity]

/-- An instrument in step with an emitter stays so with every call. -/
theorem Remembers.followAll_answer
    {e now : Emitter} {past : List Call} (h : Remembers e past now)
    (hfault : e.settings.fault? = none) (call : Call) :
    followAll e.settings.channel now.gate.sounding (now.answer call).2 =
      some (now.answer call).1.gate.sounding := by
  obtain ⟨hnext, hnotes⟩ := h.answer call
  rw [← followAll_filter, hnotes, h.sounding, hnext.sounding,
    followAll_noteEvents hfault]

/-- An instrument that is sent all events of a run holds the sounding note. -/
theorem followAll_after {e : Emitter} (hfault : e.settings.fault? = none)
    (hfresh : e.gate = .silent e.settings.gateThreshold) {σ ε : Type}
    [Outlet σ ε] (outlet : σ) (past : List Call) :
    let t :=
      Transmitter.after (⟨e, ⟨outlet, []⟩⟩ : Transmitter (Witnessed σ)) past
    followAll e.settings.channel none t.outlet.offered =
      some t.emitter.gate.sounding := by
  have hemitter :=
    Transmitter.emitter_after (⟨e, ⟨outlet, []⟩⟩ : Transmitter (Witnessed σ))
  dsimp only
  induction past with
  | nil => exact congrArg (some ∘ NoteGate.sounding) hfresh.symm
  | cons call past ih =>
    rw [Transmitter.offered_after_cons, followAll_append, ih, Option.bind_some,
      hemitter, hemitter]
    exact (remembers_after hfresh past).followAll_answer hfault call

/-- The notes of an emitter with checked settings, whatever it is asked for in
whatever order, and whatever becomes of the events.  The note events are those
that the history is due, an instrument that follows them never gets out of step,
and the note that it holds is the one that the emitter takes to be sounding.
The newest call is taken first, as `lastNote?` does. -/
theorem notes_follow_history {quantizer : Quantizer}
    {settings : EmitterSettings} {e : Emitter}
    (h : Emitter.ofSettings quantizer settings = .ok e)
    (monitor : Option Monitor) {σ ε : Type} [Outlet σ ε] (outlet : σ)
    (past : List Call) :
    let watched := { e with monitor }
    let t := Transmitter.after
      (⟨watched, ⟨outlet, []⟩⟩ : Transmitter (Witnessed σ)) past
    t.outlet.offered.filter Event.isNote = allNoteEvents watched past ∧
      followAll settings.channel none t.outlet.offered =
        some t.emitter.gate.sounding ∧
      t.emitter.gate.sounding = lastNote? watched past := by
  obtain ⟨hfault, rfl, hgate⟩ := ofSettings_ok h
  intro watched t
  have hremembers := remembers_after (e := watched) hgate
  have hemitter := Transmitter.emitter_after
    (⟨watched, ⟨outlet, []⟩⟩ : Transmitter (Witnessed σ))
  refine ⟨?_, followAll_after (e := watched) hfault hgate outlet past, ?_⟩
  · induction past with
    | nil => rfl
    | cons call past ih =>
      rw [Transmitter.offered_after_cons, List.filter_append, ih, allNoteEvents,
        ((hremembers past).answer call).2]
  · rw [hemitter]
    exact (hremembers past).sounding

theorem notes_follow_history_standard :
    ∃ e,
      Emitter.ofSettings ⟨48000, .whistle, by decide +kernel⟩ .standard =
        .ok e ∧
      let t := Transmitter.after
        (⟨{ e with monitor := none }, ⟨EventLog.empty, []⟩⟩ :
          Transmitter (Witnessed EventLog)) [.release, .cycle ⟨50, 100⟩]
      t.outlet.offered.filter Event.isNote =
          allNoteEvents { e with monitor := none }
            [.release, .cycle ⟨50, 100⟩] ∧
        followAll 0 none t.outlet.offered = some t.emitter.gate.sounding ∧
        t.emitter.gate.sounding = none := by
  have he := ofSettings_eq_ok ⟨48000, .whistle, by decide +kernel⟩
    (show EmitterSettings.standard.fault? = none by decide +kernel) (by decide)
      (by decide)
  exact ⟨_, he,
    notes_follow_history he none EventLog.empty [.release, .cycle ⟨50, 100⟩]⟩

end PitchFollower.Midi
