import PitchFollower.Proofs.Json.Records
import PitchFollower.Proofs.Undertone.Outputs
import PitchFollower.Settings.Stored

/-!
# Stored settings read back

Settings that are accepted hold finite numbers only, and all other values they
may hold have a text.  So they are read back from their own text as they were,
whatever the defaults are.
-/

namespace PitchFollower

open Json (Codec Field)

/-! ## Emitters -/

namespace Midi

theorem Velocity.codec_roundTrips (v : Velocity) :
    Velocity.codec.RoundTrips v := by
  cases v with
  | loudness => exact ⟨.string _, rfl⟩
  | fixed velocity =>
    have hbyte := Codec.byte_roundTrips velocity
    refine ⟨.object ?_ ?_, ?_⟩
    · intro m hm
      rw [List.mem_singleton.mp hm]
      exact ⟨_, rfl⟩
    · intro m hm
      rw [List.mem_singleton.mp hm]
      exact hbyte.writable
    · change (Codec.byte.read? (Codec.byte.write velocity)).map
        Velocity.fixed = _
      rw [hbyte.reads, Option.map_some]

namespace EmitterSettings

theorem isFinite_divisor {s : EmitterSettings} (h : s.fault? = none) :
    s.divisor.isFinite = true := by
  have hwindow : fault?.windowFault? s = none := by
    unfold fault? at h
    split_ifs at h
    cases hvelocity : s.velocity with
    | fixed v =>
      rw [hvelocity] at h
      dsimp only at h
      split_ifs at h
      exact h
    | loudness =>
      rw [hvelocity] at h
      exact h
  unfold fault?.windowFault? at hwindow
  split_ifs at hwindow with _ hpositive
  exact hpositive.1

/-- The settings of an emitter are read back if their one number with a point is
finite. -/
theorem codec_roundTrips {s : EmitterSettings}
    (hdivisor : s.divisor.isFinite = true) :
    EmitterSettings.codec.RoundTrips s := by
  have hchannel := Codec.byte_roundTrips s.channel
  have htranspose := Codec.signedByte_roundTrips s.transpose
  have hvelocity := Velocity.codec_roundTrips s.velocity
  have hthreshold := Codec.byte_roundTrips s.gateThreshold
  have hsize := Codec.word_roundTrips s.windowSize
  have hsingle := Codec.single_roundTrips hdivisor
  have hcontroller := Codec.byte_roundTrips s.controller
  apply Json.Record.codec_roundTrips
  · decide
  · simp only [fields, List.forall_mem_cons]
    exact ⟨Field.roundTrips_of _ hchannel, Field.roundTrips_of _ htranspose,
      Field.roundTrips_of _ hvelocity, Field.roundTrips_of _ hthreshold,
      Field.roundTrips_of _ hsize, Field.roundTrips_of _ hsingle,
      Field.roundTrips_of _ hcontroller, fun _ h => nomatch h⟩
  · simp only [fields, List.foldl_cons, List.foldl_nil,
      Field.takeOver_of _ hchannel, Field.takeOver_of _ htranspose,
      Field.takeOver_of _ hvelocity, Field.takeOver_of _ hthreshold,
      Field.takeOver_of _ hsize, Field.takeOver_of _ hsingle,
      Field.takeOver_of _ hcontroller]

end EmitterSettings

end Midi

/-! ## Undertone voices -/

namespace Undertone

theorem Weights.codec_roundTrips {w : Weights}
    (h : ∀ x ∈ w.toList, x.isFinite = true) : Weights.codec.RoundTrips w := by
  have hweights (x : Float32) (hx : x ∈ w.toList) : Codec.single.RoundTrips x :=
    Codec.single_roundTrips (h x hx)
  have hwrite : Weights.codec.write w =
      .array (w.toList.map Codec.single.write) := rfl
  refine ⟨?_, ?_⟩
  · rw [hwrite]
    refine .array ?_
    intro item hitem
    obtain ⟨x, hx, rfl⟩ := List.mem_map.mp hitem
    exact (hweights x hx).writable
  · simp only [Weights.toList, List.forall_mem_cons] at hweights
    obtain ⟨heighth, htwelfth, hsixteenth, -⟩ := hweights
    simp only [codec, Weights.toList, List.map_cons, List.map_nil,
      heighth.reads, htwelfth.reads, hsixteenth.reads]

namespace VoiceSettings

/-- A ceiling is read back, and so is its absence. -/
theorem ceiling_roundTrips {ceiling : Option Float32}
    (h : ∀ c ∈ ceiling, c.isFinite = true) :
    (Codec.option .single).RoundTrips ceiling := by
  cases ceiling with
  | none => exact Codec.option_roundTrips_none
  | some c =>
    have hfinite := h c rfl
    apply Codec.option_roundTrips_some (Codec.single_roundTrips hfinite)
    rw [Codec.write_single hfinite]
    exact nofun

theorem codec_roundTrips {s : VoiceSettings} (h : s.Accepted) :
    VoiceSettings.codec.RoundTrips s := by
  have hfloor := Codec.single_roundTrips h.noiseFloor.1
  have hgain := Codec.single_roundTrips h.gain
  have hweights := Weights.codec_roundTrips h.weights
  have hceiling := ceiling_roundTrips fun c hc => (h.ceiling c hc).1
  have hsmoothing := Codec.single_roundTrips h.smoothing.1
  apply Json.Record.codec_roundTrips
  · decide
  · simp only [fields, List.forall_mem_cons]
    exact ⟨Field.roundTrips_of _ hfloor, Field.roundTrips_of _ hgain,
      Field.roundTrips_of _ hweights, Field.roundTrips_of _ hceiling,
      Field.roundTrips_of _ hsmoothing, fun _ h => nomatch h⟩
  · simp only [fields, List.foldl_cons, List.foldl_nil,
      Field.takeOver_of _ hfloor, Field.takeOver_of _ hgain,
      Field.takeOver_of _ hweights, Field.takeOver_of _ hceiling,
      Field.takeOver_of _ hsmoothing]

end VoiceSettings

end Undertone

/-! ## Both -/

namespace Settings

theorem codec_roundTrips {s : Settings} (h : s.fault? = none) :
    codec.RoundTrips s := by
  obtain ⟨hemitter, hvoice⟩ := Option.or_eq_none_iff.mp h
  have hfirst := Midi.EmitterSettings.codec_roundTrips
    (Midi.EmitterSettings.isFinite_divisor hemitter)
  have hsecond := Undertone.VoiceSettings.codec_roundTrips
    (Undertone.VoiceSettings.accepted_of_fault? hvoice)
  apply Json.Record.codec_roundTrips
  · decide
  · simp only [fields, List.forall_mem_cons]
    exact ⟨Field.roundTrips_of _ hfirst, Field.roundTrips_of _ hsecond,
      fun _ h => nomatch h⟩
  · simp only [fields, List.foldl_cons, List.foldl_nil,
      Field.takeOver_of _ hfirst, Field.takeOver_of _ hsecond]

/-- Settings that are accepted are read back from the text that stores them,
with every number as it was.

A reader that takes the nearest double and rounds it to single precision would
lose one number, `lone`: the double nearest to its digits is the midpoint
between it and the next number, and is rounded to that one.  The reader here
scales the digits in double precision instead, which puts them on the right side
of the midpoint, so `lone` is read back too. -/
theorem ofText?_toText_of_fault? {s : Settings} (h : s.fault? = none) :
    ofText? s.toText = some s :=
  (codec_roundTrips h).ofText?_toText

/-- Settings with numbers from all over the range: both ends of it, both zeros,
and the one that comes closest to being lost. -/
def scattered : Settings where
  emitter :=
    { channel := 15
      transpose := -128
      velocity := .fixed 1
      gateThreshold := 0
      windowSize := 18446744073709551615
      divisor := Decimal.lone.toSingle
      controller := 127 }
  voice :=
    { noiseFloor := -0
      gain := .ofBits 0xff7fffff
      weights := ⟨.ofBits 1, 0.1, 16777216⟩
      energyCeiling := some (.ofBits 0x7f7fffff)
      smoothing := 0 }

/-- Scattered settings are accepted and read back. -/
theorem scattered_read_back :
    scattered.fault? = none ∧ ofText? scattered.toText = some scattered :=
  ⟨rfl, ofText?_toText_of_fault? rfl⟩

/-- A file with the text of accepted settings is loaded. -/
theorem load_toText {s : Settings} (h : s.fault? = none) :
    load (some s.toText) = .ok s := by
  have hreads : ofText? s.toText = some s := (codec_roundTrips h).ofText?_toText
  unfold load
  dsimp only
  rw [hreads]
  dsimp only
  rw [h]

end Settings

end PitchFollower
