import PitchFollower.Decimal.Layout

/-!
# Faults

The reasons for which options, tables and buffers are refused, each with the
value that caused it, and the text that reports it.
-/

namespace PitchFollower

/-- The options of an undertone voice that are checked. -/
inductive UndertoneOption where
  | noiseFloor
  | smoothing
  | gain
  | weight
  | energyCeiling
deriving DecidableEq, Repr

/-- The name of an option in a message. -/
def UndertoneOption.label : UndertoneOption → String
  | .noiseFloor => "noise floor"
  | .smoothing => "smoothing"
  | .gain => "gain"
  | .weight => "weight"
  | .energyCeiling => "energy ceiling"

/-- Why something could not be built or run. -/
inductive Fault where
  /-- A sample rate that is not positive and finite. -/
  | sampleRate (rate : Float32)
  /-- A scale with fewer than two tones. -/
  | shortScale (count : Nat)
  /-- A tone whose frequency is not positive and finite. -/
  | inaudibleTone (index : Nat)
  /-- A tone that is not higher than the one before it. -/
  | unorderedTone (index : Nat)
  /-- A loudness window for no cycles. -/
  | emptyWindow
  /-- A loudness divisor that is not positive and finite. -/
  | loudnessDivisor (divisor : Float32)
  /-- A MIDI channel beyond the last one. -/
  | channel (number : UInt8)
  /-- A MIDI data byte with its status bit set. -/
  | dataByte (value : UInt8)
  /-- A velocity that does not start a note. -/
  | velocity (value : UInt8)
  /-- An undertone option out of its range. -/
  | undertoneOption (option : UndertoneOption)
  /-- A wavetable without entries. -/
  | emptyWavetable
  /-- An output buffer that is not as long as the input. -/
  | outputLength (got expected : Nat)
  /-- A buffer for which there is no room in memory. -/
  | bufferSize
  /-- A recording that has no rate to be written with. -/
  | zeroRate

/-- The text that reports a fault. -/
def Fault.message : Fault → String
  | .sampleRate rate =>
    "sample rate must be a positive finite number, got " ++
      Decimal.inMessage rate
  | .shortScale count =>
    s!"a chromatic table needs at least 2 entries, got {count}"
  | .inaudibleTone index =>
    s!"chromatic table entry {index} must have a positive finite frequency"
  | .unorderedTone index =>
    s!"chromatic table frequencies must be strictly increasing (entry {index})"
  | .emptyWindow => "envelope window size must be greater than 0"
  | .loudnessDivisor divisor =>
    "envelope divisor must be a positive finite number, got " ++
      Decimal.inMessage divisor
  | .channel number => s!"MIDI channel must be in 0..=15, got {number}"
  | .dataByte value => s!"MIDI data byte must be in 0..=127, got {value}"
  | .velocity value => s!"note on velocity must be in 1..=127, got {value}"
  | .undertoneOption option =>
    "resynthesizer " ++ option.label ++ " must be a finite, non-negative number"
  | .emptyWavetable => "Sine table size must be greater than 0"
  | .outputLength got expected =>
    s!"Got output buffer of length {got}, expected {expected}"
  | .bufferSize => "capacity overflow"
  | .zeroRate => "attempt to divide by zero"

/-- Faults that no option check looks for.  They end a run at once. -/
def Fault.IsFatal : Fault → Prop
  | .emptyWavetable | .outputLength .. | .bufferSize | .zeroRate => True
  | _ => False

instance (fault : Fault) : Decidable fault.IsFatal := by
  unfold Fault.IsFatal
  split <;> infer_instance

end PitchFollower
