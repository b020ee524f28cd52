import PitchFollower.Tuning.Scale

/-!
# Quantizing periods

At a given sample rate a period in samples stands for a frequency, and a
frequency within the scale for a tone.
-/

namespace PitchFollower

/-- A scale together with the rate at which periods are counted. -/
structure Quantizer where
  sampleRate : Float32
  scale : Scale
  positive : Single.IsPositive sampleRate

namespace Quantizer

/-- The quantizer of a scale at a sample rate, which has to be positive and
finite. -/
def ofRate (sampleRate : Float32) (scale : Scale) : Except Fault Quantizer :=
  if positive : Single.IsPositive sampleRate then .ok ⟨sampleRate, scale,
    positive⟩
  else .error (.sampleRate sampleRate)

/-- The frequency of a positive finite period. -/
def frequency? (q : Quantizer) (period : Float32) : Option Float32 :=
  if Single.IsPositive period then some (q.sampleRate / period) else none

/-- The tone of a period, if its frequency lies within the scale. -/
def tone? (q : Quantizer) (period : Float32) : Option Tone :=
  (q.frequency? period).bind q.scale.nearest?

/-- The note number of a period, if its frequency lies within the scale. -/
def note? (q : Quantizer) (period : Float32) : Option UInt8 :=
  (q.tone? period).map Tone.noteNumber

/-- The period of the highest tone. -/
def shortestPeriod (q : Quantizer) : Float32 :=
  q.sampleRate / q.scale.highest.frequency

/-- The period of the lowest tone. -/
def longestPeriod (q : Quantizer) : Float32 :=
  q.sampleRate / q.scale.lowest.frequency

/-- A period strictly between those of the highest and the lowest tone. -/
def InRange (q : Quantizer) (period : Float32) : Prop :=
  q.shortestPeriod < period ∧ period < q.longestPeriod

instance (q : Quantizer) (period : Float32) : Decidable (q.InRange period) :=
  inferInstanceAs (Decidable (_ ∧ _))

end Quantizer

end PitchFollower
