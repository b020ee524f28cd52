import PitchFollower.Single.Basic
import PitchFollower.Fault

/-!
# Scales

A scale is a list of at least two tones in strictly ascending order of
frequency.  A frequency within the scale belongs to the tone on its side of the
arithmetic midpoint between neighbouring tones.
-/

namespace PitchFollower

/-- A named note with its frequency in Hz. -/
structure Tone where
  frequency : Float32
  name : String
  noteNumber : UInt8
deriving Inhabited

/-- A tone that can be heard has a positive finite frequency. -/
def Tone.Audible (t : Tone) : Prop :=
  Single.IsPositive t.frequency

instance (t : Tone) : Decidable t.Audible :=
  inferInstanceAs (Decidable (Single.IsPositive _))

/-- Each tone lies below the next one. -/
def Ascending : List Tone → Prop
  | t :: u :: rest => t.frequency < u.frequency ∧ Ascending (u :: rest)
  | _ => True

/-- Whether a list of tones ascends can be decided. -/
def Ascending.decide : (tones : List Tone) → Decidable (Ascending tones)
  | [] | [_] => isTrue trivial
  | t :: u :: rest =>
    have := Ascending.decide (u :: rest)
    inferInstanceAs
      (Decidable (t.frequency < u.frequency ∧ Ascending (u :: rest)))

instance (tones : List Tone) : Decidable (Ascending tones) :=
  Ascending.decide tones

/-- An ascending list of at least two audible tones. -/
structure Scale where
  lowest : Tone
  above : List Tone
  above_ne_nil : above ≠ []
  audible : ∀ t ∈ lowest :: above, t.Audible
  ascending : Ascending (lowest :: above)

namespace Scale

/-- All tones of a scale from the lowest to the highest. -/
def tones (s : Scale) : List Tone :=
  s.lowest :: s.above

/-- The tone with the highest frequency. -/
def highest (s : Scale) : Tone :=
  s.above.getLast s.above_ne_nil

/-- The place of the first tone that is not higher than the one before it. -/
def firstDescent? : List Tone → Option Nat
  | t :: u :: rest =>
    if t.frequency < u.frequency then
      (firstDescent? (u :: rest)).map (· + 1)
    else some 1
  | _ => none

/-- The scale of a list of tones.  Too short a list is reported first, then the
first inaudible tone, then the first tone out of order. -/
def ofTones (tones : List Tone) : Except Fault Scale :=
  match tones with
  | [] => .error (.shortScale 0)
  | [_] => .error (.shortScale 1)
  | t :: u :: rest =>
    if audible : ∀ x ∈ t :: u :: rest, x.Audible then
      if ascending : Ascending (t :: u :: rest) then
        .ok ⟨t, u :: rest, List.cons_ne_nil u rest, audible, ascending⟩
      else
        .error (.unorderedTone ((firstDescent? (t :: u :: rest)).getD 0))
    else
      .error (.inaudibleTone ((t :: u :: rest).findIdx fun x =>
        !decide x.Audible))

/-- The first tone with a note number. -/
def tone? (s : Scale) (noteNumber : UInt8) : Option Tone :=
  s.tones.find? fun t => t.noteNumber == noteNumber

/-- The boundary between two neighbouring tones. -/
def midpoint (t u : Tone) : Float32 :=
  0.5 * (t.frequency + u.frequency)

/-- The first tone, from `t` upwards, whose upper boundary lies above a
frequency, and the last tone if there is none. -/
def settle (frequency : Float32) (t : Tone) : List Tone → Tone
  | [] => t
  | u :: rest => if frequency < midpoint t u then t else settle frequency u rest

/-- The tone of a frequency that lies within the scale, its ends included. -/
def nearest? (s : Scale) (frequency : Float32) : Option Tone :=
  if frequency.isFinite = false ∨ frequency < s.lowest.frequency
      ∨ s.highest.frequency < frequency then none
  else some (settle frequency s.lowest s.above)

/-- The lowest tone of the range of a whistle. -/
def whistleBottom : Tone :=
  ⟨622.2540, "Eb5", 75⟩

/-- The other semitones of the range of a whistle, up to F7. -/
def whistleAbove : List Tone :=
  [⟨659.2551, "E5", 76⟩, ⟨698.4565, "F5", 77⟩, ⟨739.9888, "F#5", 78⟩,
    ⟨783.9909, "G5", 79⟩, ⟨830.6094, "Ab5", 80⟩, ⟨880.0000, "A5", 81⟩,
    ⟨932.3275, "Bb5", 82⟩, ⟨987.7666, "B5", 83⟩, ⟨1046.502, "C6", 84⟩,
    ⟨1108.731, "Db6", 85⟩, ⟨1174.659, "D6", 86⟩, ⟨1244.508, "Eb6", 87⟩,
    ⟨1318.510, "E6", 88⟩, ⟨1396.913, "F6", 89⟩, ⟨1479.978, "F#6", 90⟩,
    ⟨1567.982, "G6", 91⟩, ⟨1661.219, "Ab6", 92⟩, ⟨1760.000, "A6", 93⟩,
    ⟨1864.655, "Bb6", 94⟩, ⟨1975.533, "B6", 95⟩, ⟨2093.005, "C7", 96⟩,
    ⟨2217.461, "Db7", 97⟩, ⟨2349.318, "D7", 98⟩, ⟨2489.016, "Eb7", 99⟩,
    ⟨2637.020, "E7", 100⟩, ⟨2793.826, "F7", 101⟩]

/-- The equal tempered semitones from Eb5 to F7, roughly the range of a
whistle. -/
def whistle : Scale where
  lowest := whistleBottom
  above := whistleAbove
  above_ne_nil := List.cons_ne_nil _ _
  audible := by decide +kernel
  ascending := by decide +kernel

end Scale

instance : Inhabited Scale :=
  ⟨Scale.whistle⟩

end PitchFollower
