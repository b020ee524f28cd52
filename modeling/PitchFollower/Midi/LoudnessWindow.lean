import PitchFollower.Single.Approximation
import PitchFollower.Fault
import PitchFollower.Room

/-!
# Loudness

The energies of the most recent cycles are kept in a ring and averaged, and the
mean is scaled to the range of a MIDI value.  The slots of the ring hold zeros
in the beginning, so the loudness rises over the first window of cycles.  They
are filled from the first one on, and the zeros in those behind are not stored.
-/

namespace PitchFollower.Midi

open Single

/-- The latest energies.  The cursor points at the slot of the oldest one. -/
structure LoudnessWindow where
  /-- The number of slots. -/
  size : Nat
  /-- The energies in the slots that have been filled. -/
  filled : Array Float32
  cursor : Nat
  divisor : Float32
  /-- The loudness after the latest energy. -/
  loudness : UInt8
  filled_le : filled.size ≤ size
  cursor_lt : cursor < size
  cursor_le : cursor ≤ filled.size

namespace LoudnessWindow

/-- How many cycles are averaged unless asked otherwise. -/
def defaultSize : Nat := 20

/-- What the mean is divided by unless asked otherwise. -/
def defaultDivisor : Float32 := 2

/-- The bytes that an energy takes up. -/
def energyBytes : Nat := 4

/-- A window of zeros. -/
def silent (size : Nat) (positive : 0 < size) (divisor : Float32) :
    LoudnessWindow where
  size := size
  filled := #[]
  cursor := 0
  divisor := divisor
  loudness := 0
  filled_le := Nat.zero_le size
  cursor_lt := positive
  cursor_le := Nat.le_refl 0

/-- The window of a size and a divisor, which both have to be positive, if there
is room for it. -/
def ofOptions (size : Nat) (divisor : Float32) : Except Fault LoudnessWindow :=
  if positive : 0 < size then
    if IsPositive divisor then
      if HasRoom size energyBytes then .ok (silent size positive divisor)
      else .error .bufferSize
    else .error (.loudnessDivisor divisor)
  else .error .emptyWindow

/-- The window that is used unless asked otherwise. -/
def standard : LoudnessWindow :=
  silent defaultSize (by decide) defaultDivisor

/-- The mean of the energies in a ring of a size, added up in the order of the
slots.  Any number of zeros adds as much as a single one. -/
def meanOf (size : Nat) (filled : Array Float32) : Float32 :=
  (if filled.size < size then sum filled + 0 else sum filled) / ofNat size

/-- The mean of the energies in the window. -/
def mean (w : LoudnessWindow) : Float32 :=
  meanOf w.size w.filled

/-- The loudness of a mean energy: its ratio to the divisor on the scale of a
MIDI value, cut off at both ends. -/
def loudnessOf (mean divisor : Float32) : UInt8 :=
  let scaled := Approximate.round (mean / divisor * 127)
  if 127 ≤ scaled then 127
  else if 0 < scaled then scaled.toUInt8
  else 0

/-- Puts an energy into the slot of the oldest one.  An energy that is not
finite counts as zero. -/
def update (w : LoudnessWindow) (energy : Float32) : LoudnessWindow :=
  let energy := finiteOrZero energy
  if old : w.cursor < w.filled.size then
    store (w.filled.set w.cursor energy old) (by simpa using w.filled_le)
      (by simpa using old)
  else
    store (w.filled.push energy)
      (by
        have := w.cursor_lt
        have := w.cursor_le
        simp only [Array.size_push]
        omega)
      (by have := w.cursor_le; simp only [Array.size_push]; omega)
where
  /-- The window with other energies, and the cursor on the next slot. -/
  store (filled : Array Float32) (filled_le : filled.size ≤ w.size)
      (cursor_lt_filled : w.cursor < filled.size) : LoudnessWindow :=
    { size := w.size
      filled
      cursor := (w.cursor + 1) % w.size
      divisor := w.divisor
      loudness := loudnessOf (meanOf w.size filled) w.divisor
      filled_le
      cursor_lt := Nat.mod_lt _ (Nat.zero_lt_of_lt w.cursor_lt)
      cursor_le := Nat.le_trans (Nat.mod_le _ _) cursor_lt_filled }

/-- The window as it was before the first energy. -/
def reset (w : LoudnessWindow) : LoudnessWindow :=
  silent w.size (Nat.zero_lt_of_lt w.cursor_lt) w.divisor

end LoudnessWindow

end PitchFollower.Midi
