import PitchFollower.Midi.Settings
import PitchFollower.Undertone.Settings

/-!
# Settings

The settings of both instruments.
-/

namespace PitchFollower

/-- The settings of the emitter and of the undertone voice. -/
structure Settings where
  emitter : Midi.EmitterSettings
  voice : Undertone.VoiceSettings

namespace Settings

/-- The settings that are used unless asked otherwise. -/
def standard : Settings :=
  ⟨.standard, .standard⟩

instance : Inhabited Settings :=
  ⟨standard⟩

/-- The first thing that is wrong with the settings, if anything is. -/
def fault? (s : Settings) : Option Fault :=
  s.emitter.fault?.or s.voice.fault?

end Settings

end PitchFollower
