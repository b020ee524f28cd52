import PitchFollower.Proofs.Single.Logarithm
import PitchFollower.Proofs.Single.WholeNumbers
import PitchFollower.Proofs.Tuning.Range
import PitchFollower.Tuning.Temperament

/-!
# Hundredths of a semitone

The logarithm of a positive frequency is of moderate size, and so is its note
number.  Rounding a note number to a whole one takes away at most one half, so
no frequency is further from the nearest note than fifty hundredths of a
semitone.
-/

namespace PitchFollower.Tuning

open Single

variable {frequency : Float32}

/-! ## Note numbers -/

/-- The note number of a frequency is of moderate size, however high or low it
is. -/
theorem within_noteNumberOf (h : IsPositive frequency) :
    Within (2 ^ 16) (noteNumberOf frequency) := by
  have hoctave : Within 16 12 := ⟨by decide +kernel, by decide +kernel⟩
  have hoffset : Within 64 36.376316562295926 :=
    ⟨by decide +kernel, by decide +kernel⟩
  have hscaled : Within (2 ^ 15) (12 * Approximate.log2 frequency) :=
    hoctave.mul (Approximate.within_log2 h)
      (onGrid_zpow (e := 15) (by norm_num)) (by norm_num)
      (by norm_num)
  exact hscaled.sub hoffset (onGrid_zpow (e := 16) (by norm_num)) (by norm_num)
    (by norm_num)

theorem within_centsFromNearestNote (h : IsPositive frequency) :
    Within 50 (centsFromNearestNote frequency) := by
  have hhundred : Within 100 100 := ⟨by decide +kernel, by decide +kernel⟩
  have hfifty : OnGrid 50 := by
    exact_mod_cast onGrid_natCast (n := 50) (by norm_num)
  exact hhundred.mul
    (Approximate.within_sub_round ((within_noteNumberOf h).mono (by norm_num)))
    hfifty (by norm_num) (by norm_num)

/-- A positive frequency, also one of the least numbers, is at most fifty
hundredths of a semitone away from its nearest note. -/
theorem cents_within_half_semitone (h : IsPositive frequency) :
    (centsFromNearestNote frequency).isNaN = false ∧
      -50 ≤ centsFromNearestNote frequency ∧
      centsFromNearestNote frequency ≤ 50 := by
  have hbound := within_centsFromNearestNote h
  have hfifty : (50 : Float32).isFinite = true ∧ exact 50 = 50 := by
    decide +kernel
  obtain ⟨hlow, hhigh⟩ := abs_le.mp hbound.abs_le
  refine ⟨isNaN_of_isFinite hbound.isFinite, ?_, ?_⟩
  · rwa [le_iff ((isFinite_neg 50).trans hfifty.1) hbound.isFinite, exact_neg,
      hfifty.2]
  · rwa [le_iff hbound.isFinite hfifty.1, hfifty.2]

/-- The least positive number. -/
theorem least_frequency_within_half_semitone :
    IsPositive (.ofBits 1) ∧ (centsFromNearestNote (.ofBits 1)).isNaN = false ∧
      -50 ≤ centsFromNearestNote (.ofBits 1) ∧
      centsFromNearestNote (.ofBits 1) ≤ 50 := by
  have hpositive : IsPositive (.ofBits 1) := by decide +kernel
  exact ⟨hpositive, cents_within_half_semitone hpositive⟩

end PitchFollower.Tuning
