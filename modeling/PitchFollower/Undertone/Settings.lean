import PitchFollower.Single.Basic
import PitchFollower.Fault

/-!
# Settings of an undertone voice

How loud the undertones are and how they are mixed, and which settings are
accepted.
-/

namespace PitchFollower.Undertone

/-- A number for each of the undertones at an eighth, a twelfth and a sixteenth
of the pitch. -/
structure Weights where
  eighth : Float32
  twelfth : Float32
  sixteenth : Float32

/-- The weights from the highest undertone to the lowest. -/
def Weights.toList (w : Weights) : List Float32 :=
  [w.eighth, w.twelfth, w.sixteenth]

/-- The settings of an undertone voice. -/
structure VoiceSettings where
  /-- The energy below which a cycle is silent. -/
  noiseFloor : Float32
  gain : Float32
  weights : Weights
  /-- The most energy above the noise floor that counts, if there is a limit. -/
  energyCeiling : Option Float32
  /-- The weight `k` of the last output `y` in `(x + k * y) / (k + 1)`.  Zero
  leaves the output as it is. -/
  smoothing : Float32

namespace VoiceSettings

/-- The noise floor unless asked otherwise. -/
def defaultNoiseFloor : Float32 := 0.1

/-- The settings that are used unless asked otherwise. -/
def standard : VoiceSettings where
  noiseFloor := defaultNoiseFloor
  gain := 1
  weights := ⟨1, 1, 1⟩
  energyCeiling := none
  smoothing := 0

instance : Inhabited VoiceSettings :=
  ⟨standard⟩

/-- A finite number that is not negative. -/
def IsAmount (x : Float32) : Prop :=
  x.isFinite = true ∧ 0 ≤ x

instance (x : Float32) : Decidable (IsAmount x) :=
  inferInstanceAs (Decidable (_ ∧ _))

/-- The first thing that is wrong with the settings, if anything is. -/
def fault? (s : VoiceSettings) : Option Fault :=
  if ¬ IsAmount s.noiseFloor then some (.undertoneOption .noiseFloor)
  else if ¬ IsAmount s.smoothing then some (.undertoneOption .smoothing)
  else if s.gain.isFinite = false then some (.undertoneOption .gain)
  else if s.weights.toList.any fun w => !w.isFinite then
    some (.undertoneOption .weight)
  else
    match s.energyCeiling with
    | none => none
    | some ceiling =>
      if IsAmount ceiling then none else some (.undertoneOption .energyCeiling)

end VoiceSettings

end PitchFollower.Undertone
