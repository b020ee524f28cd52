import PitchFollower.Json.Record
import PitchFollower.Settings.Basic

/-!
# Stored settings

Settings as JSON text.  A text may leave out what keeps its standard value.
What is written states every field.
-/

namespace PitchFollower

open Json (Codec)

/-- A fixed velocity is an object with a single member, and the loudness a word
or an object with a `null`. -/
def Midi.Velocity.codec : Codec Midi.Velocity where
  read?
    | .string (some "loudness") => some .loudness
    | .object [(some "loudness", .null)] => some .loudness
    | .object [(some "fixed", json)] => (Codec.byte.read? json).map .fixed
    | _ => none
  write
    | .loudness => .ofText "loudness"
    | .fixed velocity => .ofMembers [("fixed", Codec.byte.write velocity)]

/-- The fields of the settings of an emitter. -/
def Midi.EmitterSettings.fields : List (Json.Field Midi.EmitterSettings) :=
  [.of "channel" .byte channel fun s x => { s with channel := x },
    .of "transpose" .signedByte transpose fun s x => { s with transpose := x },
    .of "velocity" Midi.Velocity.codec velocity fun s x =>
      { s with velocity := x },
    .of "gate_threshold" .byte gateThreshold fun s x =>
      { s with gateThreshold := x },
    .of "envelope_window_size" .word windowSize fun s x =>
      { s with windowSize := x },
    .of "envelope_divisor" .single divisor fun s x => { s with divisor := x },
    .of "expression_controller" .byte controller fun s x =>
      { s with controller := x }]

/-- The settings of an emitter as a record. -/
def Midi.EmitterSettings.codec : Codec Midi.EmitterSettings :=
  Json.Record.codec fields .standard

/-- Three weights are an array of three numbers. -/
def Undertone.Weights.codec : Codec Undertone.Weights where
  read?
    | .array [a, b, c] =>
      match Codec.single.read? a, Codec.single.read? b,
        Codec.single.read? c with
      | some a, some b, some c => some ⟨a, b, c⟩
      | _, _, _ => none
    | _ => none
  write w := .array (w.toList.map Codec.single.write)

/-- The fields of the settings of an undertone voice. -/
def Undertone.VoiceSettings.fields :
    List (Json.Field Undertone.VoiceSettings) :=
  [.of "noise_floor" .single noiseFloor fun s x => { s with noiseFloor := x },
    .of "gain" .single gain fun s x => { s with gain := x },
    .of "weights" Undertone.Weights.codec weights fun s x =>
      { s with weights := x },
    .of "energy_ceiling" (.option .single) energyCeiling fun s x =>
      { s with energyCeiling := x },
    .of "smoothing" .single smoothing fun s x => { s with smoothing := x }]

/-- The settings of an undertone voice as a record. -/
def Undertone.VoiceSettings.codec : Codec Undertone.VoiceSettings :=
  Json.Record.codec fields .standard

namespace Settings

/-- The two parts of the settings. -/
def fields : List (Json.Field Settings) :=
  [.of "emitter" Midi.EmitterSettings.codec emitter fun s x =>
    { s with emitter := x },
    .of "resynth" Undertone.VoiceSettings.codec voice fun s x =>
      { s with voice := x }]

/-- Settings as a record. -/
def codec : Codec Settings :=
  Json.Record.codec fields .standard

end Settings

namespace Settings

/-- The settings that a text stores, if it is well formed. -/
def ofText? : String → Option Settings :=
  codec.ofText?

/-- The text that stores settings. -/
def toText : Settings → String :=
  codec.toText

/-- Why settings could not be loaded. -/
inductive LoadError where
  /-- The file has no text that can be read. -/
  | unreadable
  /-- The text does not store settings. -/
  | malformed
  /-- The settings are not accepted. -/
  | refused (fault : Fault)

/-- The settings that a file stores.  `content` is its text, if it can be
read. -/
def load (content : Option String) : Except LoadError Settings :=
  match content with
  | none => .error .unreadable
  | some text =>
    match ofText? text with
    | none => .error .malformed
    | some settings =>
      match settings.fault? with
      | some fault => .error (.refused fault)
      | none => .ok settings

end Settings

end PitchFollower
