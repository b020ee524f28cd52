import PitchFollower.Period.Detector
import PitchFollower.Tuning.Quantizer
import PitchFollower.Undertone.Settings
import PitchFollower.Undertone.Wavetable

/-!
# Undertone voices

A voice answers every sample with one of a tone three to four octaves below the
signal.  The counters of the meter and the time since the last crossing give the
phases of three sines locked to the cycles of the signal, and the energy of the
last cycle above the noise floor gives their loudness.  The voice is silent
while the last period is outside the range of its scale.
-/

namespace PitchFollower.Undertone

/-- The state between two samples. -/
structure Voice where
  quantizer : Quantizer
  settings : VoiceSettings
  table : Wavetable
  /-- The energy of the last cycle. -/
  energy : Float32
  lastOutput : Float32

namespace Voice

/-- A silent voice.  The settings are checked first, then the size of the
table. -/
def ofSettings (quantizer : Quantizer) (settings : VoiceSettings)
    (tableSize : Nat) : Except Fault Voice := do
  if let some fault := settings.fault? then throw fault
  let table ← Wavetable.ofSize tableSize
  return { quantizer, settings, table, energy := 0, lastOutput := 0 }

/-- A voice for the range of a whistle with the standard settings. -/
def standard (sampleRate : Float32) : Except Fault Voice := do
  ofSettings (← Quantizer.ofRate sampleRate .whistle) .standard
    Wavetable.defaultSize

/-- The voice without energy and without a past. -/
def reset (v : Voice) : Voice :=
  { v with energy := 0, lastOutput := 0 }

/-- The energy above the noise floor, up to the ceiling. -/
def level (v : Voice) : Float32 :=
  let above := Single.larger (v.energy - v.settings.noiseFloor) 0
  match v.settings.energyCeiling with
  | none => above
  | some ceiling => Single.smaller above ceiling

/-- The phase of an undertone, in its own cycles: the cycles counted and the
part of the current one that has passed, out of `modulus` cycles. -/
def phase (elapsed period : Float32) (counter modulus : Nat) : Float32 :=
  (elapsed + period * Single.ofNat counter) / (period * Single.ofNat modulus)

/-- The weighted sum of the three undertones. -/
def mixture (v : Voice) (m : PeriodMeter) : Float32 :=
  let places :=
    (m.counters.toList.zip PhaseCounters.moduli).zip v.settings.weights.toList
  places.foldl
    (fun sum ((counter, modulus), weight) =>
      sum + weight * v.table.lookUp (phase m.elapsed m.period counter modulus))
    0

/-- The output before smoothing. -/
def synthesize (v : Voice) (m : PeriodMeter) : Float32 :=
  if v.quantizer.InRange m.period then
    let level := v.level
    if level == 0 then 0 else v.settings.gain * level * v.mixture m
  else 0

/-- Mixes a value with the last output. -/
def smooth (v : Voice) (value : Float32) : Float32 :=
  let k := v.settings.smoothing
  if 0 < k then (value + k * v.lastOutput) / (k + 1) else value

/-- Answers one sample, which closed a cycle or did not. -/
def sound (v : Voice) (m : PeriodMeter) (cycle : Option Cycle) :
    Voice × Float32 :=
  let v :=
    match cycle with
    | some cycle => { v with energy := cycle.energy }
    | none => v
  let output := v.smooth (v.synthesize m)
  ({ v with lastOutput := output }, output)

instance : Player Voice Float32 where
  play := sound

end Voice

end PitchFollower.Undertone
