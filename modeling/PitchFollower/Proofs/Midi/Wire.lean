import PitchFollower.Proofs.Midi.Notes
import PitchFollower.Proofs.Single.Conversions

/-!
# Events on the wire

An event takes three bytes, and the numbers in it have to fit into four bits and
seven.  This module reads events back from their bytes, which succeeds for all
events that fit, and shows that an emitter with accepted settings never sends
any other event.  Channel and controller are bounded by the check of the
settings, a note by its transposition, and a velocity or an expression by the
loudness, which stays within seven bits for windows of any energies.
-/

namespace PitchFollower.Midi

open Single

/-! ## Bytes -/

theorem byte_induction {P : UInt8 → Prop} {most : ℕ}
    (h : ∀ n < most, P (UInt8.ofNat n)) (b : UInt8) (hb : b.toNat < most) :
    P b := by
  simpa using h b.toNat hb

namespace Event

/-- The event with the given bytes.  The high half of the first one tells its
kind, and the low half its channel. -/
def ofBytes? : List UInt8 → Option Event
  | [first, key, value] =>
    let channel := first &&& 0x0f
    if first &&& 0xf0 = 0x80 then some (.noteOff channel key value)
    else if first &&& 0xf0 = 0x90 then some (.noteOn channel key value)
    else if first &&& 0xf0 = 0xb0 then some (.controlChange channel key value)
    else none
  | _ => none

/-- All numbers of an event fit into their places on the wire. -/
structure Fits (event : Event) : Prop where
  channel : event.channel ≤ 15
  key : event.key ≤ 127
  value : event.value ≤ 127

/-- The velocity of an event starts a note, or it ends one. -/
def HasVelocity : Event → Prop
  | .noteOn _ _ velocity => 1 ≤ velocity
  | .noteOff _ _ velocity => velocity = 0
  | .controlChange .. => True

theorem and_low_seven {b : UInt8} (hb : b ≤ 127) : b &&& 0x7f = b := by
  have hlt : b.toNat < 128 := Nat.lt_succ_of_le hb
  exact byte_induction (P := fun b => b &&& 0x7f = b) (by decide) b hlt

/-- Status and channel keep to their halves of the first byte. -/
theorem first_byte {c : UInt8} (hc : c ≤ 15) (status : UInt8)
    (hstatus : status = 0x80 ∨ status = 0x90 ∨ status = 0xb0) :
    c &&& 0x0f = c ∧ (status ||| c) &&& 0x0f = c ∧
      (status ||| c) &&& 0xf0 = status := by
  have hlt : c.toNat < 16 := Nat.lt_succ_of_le hc
  rcases hstatus with rfl | rfl | rfl
  · exact byte_induction (P := fun c => c &&& 0x0f = c ∧
      (0x80 ||| c) &&& 0x0f = c ∧
      (0x80 ||| c) &&& 0xf0 = 0x80) (by decide) c hlt
  · exact byte_induction (P := fun c => c &&& 0x0f = c ∧
      (0x90 ||| c) &&& 0x0f = c ∧
      (0x90 ||| c) &&& 0xf0 = 0x90) (by decide) c hlt
  · exact byte_induction (P := fun c => c &&& 0x0f = c ∧
      (0xb0 ||| c) &&& 0x0f = c ∧
      (0xb0 ||| c) &&& 0xf0 = 0xb0) (by decide) c hlt

theorem status_cases (event : Event) :
    event.status = 0x80 ∨ event.status = 0x90 ∨ event.status = 0xb0 := by
  cases event
  · exact .inr (.inl rfl)
  · exact .inl rfl
  · exact .inr (.inr rfl)

/-- Nothing of an event that fits is masked away. -/
theorem Fits.toBytes {event : Event} (h : event.Fits) :
    event.toBytes = [event.status ||| event.channel, event.key,
      event.value] := by
  rw [Event.toBytes, (first_byte h.channel _ event.status_cases).1,
    and_low_seven h.key, and_low_seven h.value]

/-- An event that fits can be read back from its bytes. -/
theorem Fits.ofBytes?_toBytes {event : Event} (h : event.Fits) :
    ofBytes? event.toBytes = some event := by
  obtain ⟨-, hchannel, hstatus⟩ := first_byte h.channel _ event.status_cases
  rw [h.toBytes, ofBytes?, hchannel, hstatus]
  cases event <;> rfl

end Event

/-! ## Loudness -/

/-- The loudness is a data byte, whatever the mean energy and the divisor
are. -/
theorem loudnessOf_le (mean divisor : Float32) :
    LoudnessWindow.loudnessOf mean divisor ≤ 127 := by
  have hfinite := Approximate.isFinite_round (mean / divisor * 127)
  unfold LoudnessWindow.loudnessOf
  generalize Approximate.round (mean / divisor * 127) = scaled at *
  have hmost : exact 127 = 127 := by decide +kernel
  have hmostfinite : (127 : Float32).isFinite = true := by decide +kernel
  dsimp only
  split_ifs with hfull hpositive
  · exact UInt8.le_refl 127
  · rw [le_iff hmostfinite hfinite, hmost, not_le] at hfull
    have hcut :=
      toNat_toUInt8 hfinite ((pos_iff hfinite).mp hpositive).le (by linarith)
    have hfloor : ⌊exact scaled⌋ < 127 :=
      Int.floor_lt.mpr (by exact_mod_cast hfull)
    rw [UInt8.le_iff_toNat_le, show (127 : UInt8).toNat = 127 from rfl]
    omega
  · decide

theorem loudness_update_le (w : LoudnessWindow) (energy : Float32) :
    (w.update energy).loudness ≤ 127 := by
  unfold LoudnessWindow.update
  dsimp only
  split
  · exact loudnessOf_le _ _
  · exact loudnessOf_le _ _

/-! ## Emitters -/

/-- What the check of the settings makes sure of. -/
structure EmitterSettings.Accepted (s : EmitterSettings) : Prop where
  channel : s.channel ≤ 15
  controller : s.controller ≤ 127
  threshold : s.gateThreshold ≤ 127
  velocity : ∀ velocity, s.velocity = .fixed velocity →
      1 ≤ velocity ∧ velocity ≤ 127

theorem EmitterSettings.accepted_of_fault? {s : EmitterSettings}
    (h : s.fault? = none) : s.Accepted := by
  unfold EmitterSettings.fault? at h
  split_ifs at h with hchannel hcontroller hthreshold
  refine ⟨UInt8.not_lt.mp hchannel, UInt8.not_lt.mp hcontroller,
    UInt8.not_lt.mp hthreshold, ?_⟩
  intro velocity hvelocity
  rw [hvelocity] at h
  dsimp only at h
  split_ifs at h with hsilent
  rw [not_or] at hsilent
  refine ⟨?_, UInt8.not_lt.mp hsilent.2⟩
  rw [UInt8.le_iff_toNat_le]
  exact Nat.one_le_iff_ne_zero.mpr fun hzero =>
    hsilent.1 (UInt8.toNat_inj.mp hzero)

/-- An emitter whose numbers all fit into the events that it sends. -/
structure Emitter.Bounded (e : Emitter) : Prop where
  settings : e.settings.Accepted
  sounding : ∀ note ∈ e.gate.sounding, note ≤ 127

section Steps

variable {e : Emitter}

theorem transposed?_le (e : Emitter) (tone : UInt8) :
    ∀ note ∈ e.transposed? tone, note ≤ 127 := by
  intro note hnote
  unfold Emitter.transposed? at hnote
  dsimp only at hnote
  split_ifs at hnote with hrange
  · cases hnote
    rw [UInt8.le_iff_toNat_le, Nat.toUInt8_eq,
      UInt8.toNat_ofNat_of_lt' (by simp; omega)]
    exact Int.toNat_le.mpr hrange.2
  · cases hnote

theorem velocityAt_bounds (h : e.settings.Accepted) {loudness : UInt8}
    (hloudness : loudness ≤ 127) :
    1 ≤ e.velocityAt loudness ∧ e.velocityAt loudness ≤ 127 := by
  unfold Emitter.velocityAt
  cases hvelocity : e.settings.velocity with
  | fixed velocity => exact h.velocity velocity hvelocity
  | loudness =>
    change 1 ≤ (if loudness ≤ 1 then 1 else loudness) ∧
      (if loudness ≤ 1 then 1 else loudness) ≤ 127
    split_ifs with hone
    · decide
    · exact ⟨UInt8.le_of_lt (UInt8.not_le.mp hone), hloudness⟩

/-- What a gate asks for is made of the loudness, the note that it was told of
and the note that it kept. -/
theorem onCycle_bounded {g : NoteGate} {note : Option UInt8}
    {loudness most : UInt8} (hnote : ∀ n ∈ note, n ≤ most)
    (hsounding : ∀ n ∈ g.sounding, n ≤ most) (hloudness : loudness ≤ most) :
    (∀ n ∈ (g.onCycle note loudness).1.sounding, n ≤ most) ∧
      (∀ n ∈ (g.onCycle note loudness).2.expression, n ≤ most) ∧
      (∀ n ∈ (g.onCycle note loudness).2.noteOff, n ≤ most) ∧
      ∀ n ∈ (g.onCycle note loudness).2.noteOn, n ≤ most := by
  have hnews : ∀ n ∈ g.news loudness, n ≤ most := by
    intro n hn
    unfold NoteGate.news at hn
    split_ifs at hn
    · cases hn
    · cases hn
      exact hloudness
  obtain ⟨-, heq⟩ | ⟨audible, haudible, heq⟩ := g.onCycle_cases note loudness
  · rw [heq]
    exact ⟨hsounding, hnews, by rintro n ⟨⟩, by rintro n ⟨⟩⟩
  · have hbound : ∀ n ∈ some audible, n ≤ most := by
      rw [← haudible]
      unfold NoteGate.audibleNote?
      split_ifs
      · exact hnote
      · rintro n ⟨⟩
    rw [heq]
    exact ⟨hbound, hnews, hsounding, hbound⟩

theorem messages_fit (h : e.settings.Accepted) {velocity : UInt8}
    {asked : GateEvents} (hvelocity : 1 ≤ velocity ∧ velocity ≤ 127)
    (hexpression : ∀ n ∈ asked.expression, n ≤ 127)
    (hoff : ∀ n ∈ asked.noteOff, n ≤ 127) (hon : ∀ n ∈ asked.noteOn, n ≤ 127) :
    ∀ event ∈ e.messages velocity asked, event.Fits ∧ event.HasVelocity := by
  intro event hevent
  simp only [Emitter.messages, List.mem_filterMap, List.mem_cons,
    List.not_mem_nil, or_false, id_eq, exists_eq_right,
    eq_comm (a := some event), Option.map_eq_some_iff] at hevent
  rcases hevent with ⟨n, hn, rfl⟩ | ⟨n, hn, rfl⟩ | ⟨n, hn, rfl⟩
  · exact ⟨⟨h.channel, h.controller, hexpression n hn⟩, trivial⟩
  · exact ⟨⟨h.channel, hoff n hn, show (0 : UInt8) ≤ 127 by decide⟩, rfl⟩
  · exact ⟨⟨h.channel, hon n hn, hvelocity.2⟩, hvelocity.1⟩

/-- A call keeps the bounds, and all events that it is answered with fit. -/
theorem Emitter.Bounded.answer (h : e.Bounded) (call : Call) :
    (e.answer call).1.Bounded ∧
      ∀ event ∈ (e.answer call).2, event.Fits ∧ event.HasVelocity := by
  cases call with
  | cycle cycle =>
    have hloudness := loudness_update_le e.window cycle.energy
    have hnote : ∀ n ∈ (e.quantizer.note? cycle.period).bind e.transposed?,
        n ≤ 127 := by
      intro n hn
      obtain ⟨tone, -, hn⟩ := Option.bind_eq_some_iff.mp hn
      exact transposed?_le e tone n hn
    obtain ⟨hsounding, hexpression, hoff, hon⟩ :=
      onCycle_bounded hnote h.sounding hloudness
    exact ⟨⟨h.settings, hsounding⟩,
      messages_fit h.settings (velocityAt_bounds h.settings hloudness)
        hexpression hoff hon⟩
  | release =>
    refine ⟨⟨h.settings, by rintro n ⟨⟩⟩, fun event hevent => ?_⟩
    change event ∈
      (e.gate.sounding.map (Event.noteOff e.settings.channel · 0)).toList
      at hevent
    rw [Option.mem_toList, Option.map_eq_some_iff] at hevent
    obtain ⟨note, hnote, rfl⟩ := hevent
    exact ⟨⟨h.settings.channel, h.sounding note hnote,
      show (0 : UInt8) ≤ 127 by decide⟩, rfl⟩

theorem bounded_of_ofSettings {quantizer : Quantizer}
    {settings : EmitterSettings}
    (h : Emitter.ofSettings quantizer settings = .ok e)
    (monitor : Option Monitor) : ({ e with monitor } : Emitter).Bounded := by
  obtain ⟨hfault, rfl, hgate⟩ := ofSettings_ok h
  refine ⟨EmitterSettings.accepted_of_fault? hfault, ?_⟩
  rw [hgate]
  rintro n ⟨⟩

theorem Emitter.Bounded.after (h : e.Bounded) (past : List Call) :
    (e.after past).Bounded := by
  induction past with
  | nil => exact h
  | cons call past ih => exact (ih.answer call).1

end Steps

/-- Every event that an emitter with checked settings offers, whatever it has
been asked for and for a scale of any note numbers, has a channel of four bits
and data bytes of seven; a note starts with a velocity from 1 on and ends with
the velocity zero.  So nothing is masked away on the wire, and the three bytes
give the event back. -/
theorem offered_events_fit {quantizer : Quantizer} {settings : EmitterSettings}
    {e : Emitter} (h : Emitter.ofSettings quantizer settings = .ok e)
    (monitor : Option Monitor) {σ ε : Type} [Outlet σ ε] (outlet : σ)
    (past : List Call) :
    ∀ event ∈
      (Transmitter.after
        (⟨{ e with monitor }, ⟨outlet, []⟩⟩ : Transmitter (Witnessed σ))
        past).outlet.offered,
      event.Fits ∧ event.HasVelocity ∧
        event.toBytes =
          [event.status ||| event.channel, event.key, event.value] ∧
        Event.ofBytes? event.toBytes = some event := by
  have hbounded := bounded_of_ofSettings h monitor
  induction past with
  | nil => exact fun event hevent => absurd hevent List.not_mem_nil
  | cons call past ih =>
    intro event hevent
    rw [Transmitter.offered_after_cons, List.mem_append] at hevent
    rcases hevent with hbefore | hnow
    · exact ih event hbefore
    · obtain ⟨hfits, hvelocity⟩ :=
        ((hbounded.after past).answer call).2 event hnow
      exact ⟨hfits, hvelocity, hfits.toBytes, hfits.ofBytes?_toBytes⟩

/-- Two tones with the least and the largest note number. -/
def farApart : Scale where
  lowest := ⟨400, "low", 0⟩
  above := [⟨900, "high", 255⟩]
  above_ne_nil := List.cons_ne_nil _ _
  audible := by decide +kernel
  ascending := by decide +kernel

theorem isPositive_rate : IsPositive 48000 := by
  decide +kernel

/-- The largest of all settings that are checked, and the lowest
transposition. -/
def extreme : EmitterSettings where
  channel := 15
  transpose := -128
  velocity := .loudness
  gateThreshold := 127
  windowSize := 1
  divisor := 2
  controller := 127

theorem extreme_note_fits :
    ∃ e, Emitter.ofSettings ⟨48000, farApart, isPositive_rate⟩ extreme = .ok e ∧
      Event.noteOn 15 127 127 ∈
        (Transmitter.after
          (⟨{ e with monitor := none }, ⟨EventLog.empty, []⟩⟩ :
            Transmitter (Witnessed EventLog))
          [.cycle ⟨60, 3⟩]).outlet.offered ∧
      (Event.noteOn 15 127 127).Fits ∧ (Event.noteOn 15 127 127).HasVelocity ∧
      (Event.noteOn 15 127 127).toBytes = [0x9f, 127, 127] ∧
      Event.ofBytes? (Event.noteOn 15 127 127).toBytes =
        some (.noteOn 15 127 127) := by
  have he := ofSettings_eq_ok ⟨48000, farApart, isPositive_rate⟩
    (show extreme.fault? = none by decide +kernel) (by decide) (by decide)
  refine ⟨_, he, ?_,
    offered_events_fit he none EventLog.empty [.cycle ⟨60, 3⟩] _ ?_⟩
  · decide +kernel
  · decide +kernel

end PitchFollower.Midi
