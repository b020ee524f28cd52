import PitchFollower.Proofs.Decimal.Agreement
import PitchFollower.Proofs.Json.Overrides
import PitchFollower.Settings.Stored

/-!
# Settings from some of their fields

A text of settings may leave out any of the fields, and either of the two parts.
What it leaves out keeps its standard value, and nothing else does.  Which
numbers the numerals of a text stand for is a parameter of what it means to
write settings.
-/

namespace PitchFollower

open Json (Codec Field IsText)
open Json.Record (Chooses Overriding replaces_of)

/-- Which numeral stands for which number. -/
abbrev Reading :=
  Numeral → Float32 → Prop

/-- A numeral that stands for a number. -/
def Reading.Writes (stands : Reading) (x : Float32) (json : Json) : Prop :=
  ∃ n, json = .number n ∧ stands n x

theorem single_read? {x : Float32} {json : Json}
    (h : Reading.Writes Numeral.StandsFor x json) :
    Codec.single.read? json = some x := by
  obtain ⟨n, rfl, hn⟩ := h
  exact hn.scaledSingle?_eq

/-! ## Emitters -/

namespace Midi

/-- The values that write a velocity. -/
inductive Velocity.Writes : Velocity → Json → Prop
  | word : Writes .loudness (.ofText "loudness")
  | null : Writes .loudness (.ofMembers [("loudness", .null)])
  | fixed (velocity : UInt8) :
      Writes (.fixed velocity) (.ofMembers [("fixed", .ofInt velocity.toNat)])

theorem Velocity.Writes.read? {v : Velocity} {json : Json} (h : v.Writes json) :
    Velocity.codec.read? json = some v := by
  cases h with
  | word => rfl
  | null => rfl
  | fixed velocity =>
    change (Codec.byte.read? (Codec.byte.write velocity)).map Velocity.fixed = _
    rw [(Codec.byte_roundTrips velocity).reads, Option.map_some]

namespace EmitterSettings

/-- The settings `s` with the named fields replaced by those of `c`. -/
def override (c : EmitterSettings) (names : List String) (s : EmitterSettings) :
    EmitterSettings where
  channel := if "channel" ∈ names then c.channel else s.channel
  transpose := if "transpose" ∈ names then c.transpose else s.transpose
  velocity := if "velocity" ∈ names then c.velocity else s.velocity
  gateThreshold :=
    if "gate_threshold" ∈ names then c.gateThreshold else s.gateThreshold
  windowSize :=
    if "envelope_window_size" ∈ names then c.windowSize else s.windowSize
  divisor := if "envelope_divisor" ∈ names then c.divisor else s.divisor
  controller :=
    if "expression_controller" ∈ names then c.controller else s.controller

/-- The members name exactly the chosen fields, and write what the settings hold
in these. -/
structure Writes (stands : Reading) (c : EmitterSettings) (chosen : List String)
    (members : List (String × Json)) : Prop where
  chosen : Chooses fields chosen members
  channel : ∀ json, ("channel", json) ∈ members → json = .ofInt c.channel.toNat
  transpose : ∀ json, ("transpose", json) ∈ members →
      json = .ofInt c.transpose.toInt
  velocity : ∀ json, ("velocity", json) ∈ members → c.velocity.Writes json
  gateThreshold : ∀ json, ("gate_threshold", json) ∈ members →
      json = .ofInt c.gateThreshold.toNat
  windowSize : ∀ json, ("envelope_window_size", json) ∈ members →
      json = .ofInt c.windowSize.toNat
  divisor : ∀ json, ("envelope_divisor", json) ∈ members →
      stands.Writes c.divisor json
  controller : ∀ json, ("expression_controller", json) ∈ members →
    json = .ofInt c.controller.toNat

theorem Writes.overriding {c : EmitterSettings} {chosen : List String}
    {members : List (String × Json)}
    (h : Writes Numeral.StandsFor c chosen members) :
    Overriding fields members c.override where
  none s := rfl
  congr hnames s := by
    simp only [fields, List.forall_mem_cons, Field.of] at hnames
    simp only [override, hnames]
  replaces := by
    have hchannel (json : Json) (hjson : ("channel", json) ∈ members) :=
      (Codec.byte_roundTrips c.channel).read?_of_eq (h.channel json hjson)
    have htranspose (json : Json) (hjson : ("transpose", json) ∈ members) :=
      (Codec.signedByte_roundTrips c.transpose).read?_of_eq
        (h.transpose json hjson)
    have hvelocity (json : Json) (hjson : ("velocity", json) ∈ members) :=
      (h.velocity json hjson).read?
    have hthreshold (json : Json)
        (hjson : ("gate_threshold", json) ∈ members) :=
      (Codec.byte_roundTrips c.gateThreshold).read?_of_eq
        (h.gateThreshold json hjson)
    have hsize (json : Json)
        (hjson : ("envelope_window_size", json) ∈ members) :=
      (Codec.word_roundTrips c.windowSize).read?_of_eq (h.windowSize json hjson)
    have hdivisor (json : Json)
        (hjson : ("envelope_divisor", json) ∈ members) :=
      single_read? (h.divisor json hjson)
    have hcontroller (json : Json)
        (hjson : ("expression_controller", json) ∈ members) :=
      (Codec.byte_roundTrips c.controller).read?_of_eq (h.controller json hjson)
    simp only [fields, List.forall_mem_cons]
    exact ⟨replaces_of hchannel (by simp [override]),
      replaces_of htranspose (by simp [override]),
      replaces_of hvelocity (by simp [override]),
      replaces_of hthreshold (by simp [override]),
      replaces_of hsize (by simp [override]),
      replaces_of hdivisor (by simp [override]),
      replaces_of hcontroller (by simp [override]), fun _ h => nomatch h⟩

/-- An object that writes the chosen fields is read as the standard settings
with these fields replaced. -/
theorem Writes.read? {c : EmitterSettings} {chosen : List String}
    {members : List (String × Json)}
    (h : Writes Numeral.StandsFor c chosen members) :
    EmitterSettings.codec.read? (.ofMembers members) =
      some (c.override chosen standard) :=
  h.overriding.read?_eq_override (by decide) h.chosen standard

end EmitterSettings

end Midi

/-! ## Undertone voices -/

namespace Undertone

/-- The arrays that write three weights. -/
inductive Weights.Writes (stands : Reading) (w : Weights) : Json → Prop
  | array {a b c : Json} (ha : stands.Writes w.eighth a)
      (hb : stands.Writes w.twelfth b)
      (hc : stands.Writes w.sixteenth c) : Writes stands w (.array [a, b, c])

theorem Weights.Writes.read? {w : Weights} {json : Json}
    (h : w.Writes Numeral.StandsFor json) :
    Weights.codec.read? json = some w := by
  cases h with
  | array ha hb hc =>
    simp only [codec, single_read? ha, single_read? hb, single_read? hc]

/-- The values that write a ceiling, or that there is none. -/
inductive CeilingWrites (stands : Reading) : Option Float32 → Json → Prop
  | unlimited : CeilingWrites stands none .null
  | limited {x : Float32} {json : Json} (h : stands.Writes x json) :
      CeilingWrites stands (some x) json

theorem CeilingWrites.read? {ceiling : Option Float32} {json : Json}
    (h : CeilingWrites Numeral.StandsFor ceiling json) :
    (Codec.option .single).read? json = some ceiling := by
  cases h with
  | unlimited => rfl
  | limited hjson =>
    have hread := single_read? hjson
    obtain ⟨n, rfl, -⟩ := hjson
    change (Codec.single.read? (.number n)).map some = _
    rw [hread, Option.map_some]

namespace VoiceSettings

/-- The settings `s` with the named fields replaced by those of `c`. -/
def override (c : VoiceSettings) (names : List String) (s : VoiceSettings) :
    VoiceSettings where
  noiseFloor := if "noise_floor" ∈ names then c.noiseFloor else s.noiseFloor
  gain := if "gain" ∈ names then c.gain else s.gain
  weights := if "weights" ∈ names then c.weights else s.weights
  energyCeiling :=
    if "energy_ceiling" ∈ names then c.energyCeiling else s.energyCeiling
  smoothing := if "smoothing" ∈ names then c.smoothing else s.smoothing

/-- The members name exactly the chosen fields, and write what the settings hold
in these. -/
structure Writes (stands : Reading) (c : VoiceSettings) (chosen : List String)
    (members : List (String × Json)) : Prop where
  chosen : Chooses fields chosen members
  noiseFloor : ∀ json, ("noise_floor", json) ∈ members →
      stands.Writes c.noiseFloor json
  gain : ∀ json, ("gain", json) ∈ members → stands.Writes c.gain json
  weights : ∀ json, ("weights", json) ∈ members → c.weights.Writes stands json
  energyCeiling : ∀ json, ("energy_ceiling", json) ∈ members →
    CeilingWrites stands c.energyCeiling json
  smoothing : ∀ json, ("smoothing", json) ∈ members →
      stands.Writes c.smoothing json

theorem Writes.overriding {c : VoiceSettings} {chosen : List String}
    {members : List (String × Json)}
    (h : Writes Numeral.StandsFor c chosen members) :
    Overriding fields members c.override where
  none s := rfl
  congr hnames s := by
    simp only [fields, List.forall_mem_cons, Field.of] at hnames
    simp only [override, hnames]
  replaces := by
    have hfloor (json : Json) (hjson : ("noise_floor", json) ∈ members) :=
      single_read? (h.noiseFloor json hjson)
    have hgain (json : Json) (hjson : ("gain", json) ∈ members) :=
      single_read? (h.gain json hjson)
    have hweights (json : Json) (hjson : ("weights", json) ∈ members) :=
      (h.weights json hjson).read?
    have hceiling (json : Json) (hjson : ("energy_ceiling", json) ∈ members) :=
      (h.energyCeiling json hjson).read?
    have hsmoothing (json : Json) (hjson : ("smoothing", json) ∈ members) :=
      single_read? (h.smoothing json hjson)
    simp only [fields, List.forall_mem_cons]
    exact ⟨replaces_of hfloor (by simp [override]),
      replaces_of hgain (by simp [override]),
      replaces_of hweights (by simp [override]),
      replaces_of hceiling (by simp [override]),
      replaces_of hsmoothing (by simp [override]), fun _ h => nomatch h⟩

theorem Writes.read? {c : VoiceSettings} {chosen : List String}
    {members : List (String × Json)}
    (h : Writes Numeral.StandsFor c chosen members) :
    VoiceSettings.codec.read? (.ofMembers members) =
      some (c.override chosen standard) :=
  h.overriding.read?_eq_override (by decide) h.chosen standard

end VoiceSettings

end Undertone

/-! ## Both -/

namespace Settings

/-- The fields that a text writes: which parts, and which fields of each. -/
structure Choice where
  parts : List String
  emitter : List String
  voice : List String

/-- The settings `s` with the named parts replaced.  A part keeps the standard
values in the fields that are not chosen. -/
def override (c : Settings) (choice : Choice) (parts : List String)
    (s : Settings) : Settings where
  emitter :=
    if "emitter" ∈ parts then
      c.emitter.override choice.emitter .standard
    else s.emitter
  voice :=
    if "resynth" ∈ parts then
      c.voice.override choice.voice .standard
    else s.voice

/-- The standard settings with the chosen fields replaced by those of `c`. -/
def chosen (c : Settings) (choice : Choice) : Settings :=
  c.override choice choice.parts standard

/-- The members name exactly the chosen parts, and each of them writes the
chosen fields of the settings. -/
structure Writes (stands : Reading) (c : Settings) (choice : Choice)
    (members : List (String × Json)) : Prop where
  chosen : Chooses fields choice.parts members
  emitter : ∀ json, ("emitter", json) ∈ members →
    ∃ inner, json = .ofMembers inner ∧
      c.emitter.Writes stands choice.emitter inner
  voice : ∀ json, ("resynth", json) ∈ members →
    ∃ inner, json = .ofMembers inner ∧ c.voice.Writes stands choice.voice inner

theorem Writes.overriding {c : Settings} {choice : Choice}
    {members : List (String × Json)}
    (h : c.Writes Numeral.StandsFor choice members) :
    Overriding fields members (c.override choice) where
  none s := rfl
  congr hnames s := by
    simp only [fields, List.forall_mem_cons, Field.of] at hnames
    simp only [override, hnames]
  replaces := by
    have hemitter (json : Json) (hjson : ("emitter", json) ∈ members) :
        Midi.EmitterSettings.codec.read? json =
          some (c.emitter.override choice.emitter .standard) := by
      obtain ⟨inner, rfl, hinner⟩ := h.emitter json hjson
      exact hinner.read?
    have hvoice (json : Json) (hjson : ("resynth", json) ∈ members) :
        Undertone.VoiceSettings.codec.read? json =
          some (c.voice.override choice.voice .standard) := by
      obtain ⟨inner, rfl, hinner⟩ := h.voice json hjson
      exact hinner.read?
    simp only [fields, List.forall_mem_cons]
    exact ⟨replaces_of hemitter (by simp [override]),
      replaces_of hvoice (by simp [override]), fun _ h => nomatch h⟩

/-- A text that writes some fields of settings is read as the standard settings
with just these fields replaced. -/
theorem ofText?_of_writes {c : Settings} {choice : Choice}
    {members : List (String × Json)} {text : String}
    (h : c.Writes Numeral.StandsFor choice members)
    (htext : IsText (.ofMembers members) text) :
    ofText? text = some (c.chosen choice) := by
  have hread := h.overriding.read?_eq_override (by decide) h.chosen standard
  rw [ofText?, Codec.ofText?, Json.read?_of_isText htext]
  exact hread

/-- Settings with values of their own in both parts, among them a gain next to
0.3. -/
def plucked : Settings where
  emitter :=
    { Midi.EmitterSettings.standard with channel := 15, velocity := .loudness }
  voice := { Undertone.VoiceSettings.standard with gain := .ofBits 0x3e99999a }

/-- A gain with seventeen digits, more than double precision holds. -/
def pluckedGain : Numeral where
  negative := false
  whole := ['0']
  fraction := "30000000000000004".toList
  exponent := none

theorem isDigit_pluckedGain :
    ∀ c ∈ pluckedGain.whole ++ pluckedGain.fraction, c.isDigit = true :=
  List.all_eq_true.mp (by decide +kernel)

theorem isStrict_pluckedGain : Json.IsStrict pluckedGain where
  whole c hc := isDigit_pluckedGain c (List.mem_append_left _ hc)
  fraction c hc := isDigit_pluckedGain c (List.mem_append_right _ hc)
  lead := .inl rfl

/-- Nothing as close to what is written as the two readers come is rounded to
another number. -/
theorem isPlain_pluckedGain : pluckedGain.IsPlain :=
  .apart isDigit_pluckedGain (by decide +kernel)

/-- Members for a field of each part, among names that are known in another
place only. -/
def pluckedMembers : List (String × Json) :=
  [("resynth", .ofMembers [("channel", .null), ("gain", .number pluckedGain)]),
    ("gain", .ofInt 3),
    ("emitter", .ofMembers [("channel", .ofInt 15), ("resynth", .array [])])]

/-- Two members of `plucked` are read, and its velocity is not. -/
theorem plucked_read :
    plucked.Writes Numeral.StandsFor
        ⟨["emitter", "resynth"], ["channel"], ["gain"]⟩ pluckedMembers ∧
      ofText? (String.ofList (Json.write (.ofMembers pluckedMembers))) =
        some (plucked.chosen
          ⟨["emitter", "resynth"], ["channel"], ["gain"]⟩) := by
  have hemitter : plucked.emitter.Writes Numeral.StandsFor ["channel"]
      [("channel", .ofInt 15), ("resynth", .array [])] := by
    have hchannel : Json.ofInt 15 = .ofInt plucked.emitter.channel.toNat := rfl
    exact ⟨by decide, by simpa using hchannel, by simp, by simp, by simp,
      by simp, by simp, by simp⟩
  have hvoice : plucked.voice.Writes Numeral.StandsFor ["gain"]
      [("channel", .null), ("gain", .number pluckedGain)] := by
    have hgain : Reading.Writes Numeral.StandsFor plucked.voice.gain
        (.number pluckedGain) :=
      ⟨_, rfl, .inr ⟨isPlain_pluckedGain, by decide +kernel⟩⟩
    exact ⟨by decide, by simp, by simpa using hgain, by simp, by simp, by simp⟩
  have hwrites : plucked.Writes Numeral.StandsFor
      ⟨["emitter", "resynth"], ["channel"], ["gain"]⟩ pluckedMembers := by
    refine ⟨by decide, ?_, ?_⟩
    · simpa [pluckedMembers] using ⟨_, rfl, hemitter⟩
    · simpa [pluckedMembers] using ⟨_, rfl, hvoice⟩
  have hwritable : Json.IsWritable (.ofMembers pluckedMembers) := by
    apply Json.isWritable_ofMembers
    simp only [pluckedMembers, List.forall_mem_cons]
    refine ⟨Json.isWritable_ofMembers ?_, Codec.isWritable_ofInt 3,
      Json.isWritable_ofMembers ?_, fun _ h => nomatch h⟩
    · simp only [List.forall_mem_cons]
      exact ⟨.null, .number isStrict_pluckedGain, fun _ h => nomatch h⟩
    · simp only [List.forall_mem_cons]
      exact ⟨Codec.isWritable_ofInt 15, .array fun _ h => (nomatch h),
        fun _ h => nomatch h⟩
  exact ⟨hwrites, ofText?_of_writes hwrites hwritable.isText⟩

/-- Standard settings with a gain of 2 to the power of 53. -/
def amplified : Settings where
  emitter := .standard
  voice := { Undertone.VoiceSettings.standard with gain := .ofBits 0x5a000000 }

/-- An integer just above the middle between this gain and the next number. -/
def amplifiedMembers : List (String × Json) :=
  [("resynth", .ofMembers [("gain", .ofInt 9007199791611905)])]

/-- The double nearest to this integer is the middle itself and is rounded to
the even gain.  The integer is rounded only once, away from it. -/
theorem amplified_not_read :
    amplified.fault? = none ∧
      amplified.Writes (fun n x => n.toSingle = x)
        ⟨["resynth"], [], ["gain"]⟩ amplifiedMembers ∧
      IsText (.ofMembers amplifiedMembers)
        (String.ofList (Json.write (.ofMembers amplifiedMembers))) ∧
      ofText? (String.ofList (Json.write (.ofMembers amplifiedMembers))) ≠
        some (amplified.chosen ⟨["resynth"], [], ["gain"]⟩) := by
  have hvoice : amplified.voice.Writes (fun n x => n.toSingle = x) ["gain"]
      [("gain", .ofInt 9007199791611905)] := by
    have hgain : Reading.Writes (fun n x => n.toSingle = x) amplified.voice.gain
        (.ofInt 9007199791611905) := ⟨_, rfl, by decide +kernel⟩
    exact ⟨by decide, by simp, by simpa using hgain, by simp, by simp, by simp⟩
  have hwritable : Json.IsWritable (.ofMembers amplifiedMembers) := by
    apply Json.isWritable_ofMembers
    simp only [amplifiedMembers, List.forall_mem_cons]
    refine ⟨Json.isWritable_ofMembers ?_, fun _ h => nomatch h⟩
    simp only [List.forall_mem_cons]
    exact ⟨Codec.isWritable_ofInt _, fun _ h => nomatch h⟩
  refine ⟨by decide +kernel, ⟨by decide, by simp [amplifiedMembers], ?_⟩,
    hwritable.isText, ?_⟩
  · simpa [amplifiedMembers] using ⟨_, rfl, hvoice⟩
  · intro hread
    have hgain :=
      congrArg (Option.map fun s : Settings => s.voice.gain.toBits) hread
    revert hgain
    decide +kernel

end Settings

end PitchFollower
