import PitchFollower.Proofs.Single.Order
import PitchFollower.Tuning.Quantizer

/-!
# Periods in range

A quantizer draws the limits of its scale twice: as two rounded periods, which a
period in range lies strictly between, and as two frequencies, which the rounded
frequency of a period has to lie between.  No number lies strictly between an
exact result and the nearest number to it, so a period beyond a rounded limit
lies beyond the exact one.  Its exact frequency then lies within the scale, and
rounding does not take it out.
-/

namespace PitchFollower

namespace Single

/-! ## Comparing with rounded results -/

section Rounded

variable {q : ℚ} {x z : Float32}

/-- A number below a rounded result is below the exact one. -/
theorem RoundsTo.exact_lt (h : RoundsTo q z) (hx : x.isFinite = true)
    (hlt : x < z) : exact x < q := by
  by_contra hle
  have hnearest : nearest q ≤ exact x :=
    (onGrid_exact x).nearest_le (not_lt.mp hle)
  unfold RoundsTo at h
  split_ifs at h with hrange hneg
  · rw [lt_iff hx h.1, h.2] at hlt
    exact hnearest.not_gt hlt
  · exact not_lt_negative_infinity h hlt
  · have habs := abs_exact_lt x
    rw [abs_of_nonneg (nearest_nonneg (not_lt.mp hneg)), not_lt] at hrange
    linarith [le_abs_self (exact x)]

/-- A number above a rounded result is above the exact one. -/
theorem RoundsTo.lt_exact (h : RoundsTo q z) (hx : x.isFinite = true)
    (hlt : z < x) : q < exact x := by
  by_contra hle
  have hnearest : exact x ≤ nearest q :=
    (onGrid_exact x).le_nearest (not_lt.mp hle)
  unfold RoundsTo at h
  split_ifs at h with hrange hneg
  · rw [lt_iff h.1 hx, h.2] at hlt
    exact hnearest.not_gt hlt
  · have habs := abs_exact_lt x
    have hnonpos : nearest q ≤ 0 := nearest_zero ▸ nearest_mono hneg.le
    rw [abs_of_nonpos hnonpos, not_lt] at hrange
    linarith [neg_abs_le (exact x)]
  · exact not_positive_infinity_lt h hlt

end Rounded

theorem isPositive_iff (x : Float32) :
    IsPositive x ↔ x.isFinite = true ∧ 0 < exact x := by
  unfold IsPositive
  exact and_congr_right fun hx => pos_iff hx

end Single

open Single

/-! ## Scales -/

namespace Scale

theorem highest_mem (s : Scale) : s.highest ∈ s.lowest :: s.above :=
  List.mem_cons_of_mem _ (List.getLast_mem s.above_ne_nil)

/-- A number between the frequencies of the lowest and the highest tone has a
tone, whichever it is. -/
theorem isSome_nearest? {s : Scale} {frequency : Float32}
    (hfinite : frequency.isFinite = true)
    (hlow : exact s.lowest.frequency ≤ exact frequency)
    (hhigh : exact frequency ≤ exact s.highest.frequency) :
    (s.nearest? frequency).isSome = true := by
  have hlowest := (s.audible s.lowest List.mem_cons_self).1
  have hhighest := (s.audible s.highest s.highest_mem).1
  unfold nearest?
  rw [if_neg]
  · rfl
  · rintro (hinfinite | hbelow | habove)
    · rw [hfinite] at hinfinite
      cases hinfinite
    · exact hlow.not_gt ((lt_iff hfinite hlowest).mp hbelow)
    · exact hhigh.not_gt ((lt_iff hhighest hfinite).mp habove)

end Scale

/-! ## Quantizers -/

namespace Quantizer

variable {q : Quantizer} {period : Float32}

/-- The exact periods of the highest and the lowest tone enclose a period in
range. -/
theorem InRange.exact_bounds (h : q.InRange period) :
    period.isFinite = true ∧
      exact q.sampleRate / exact q.scale.highest.frequency < exact period ∧
      exact period < exact q.sampleRate / exact q.scale.lowest.frequency := by
  obtain ⟨hshort, hlong⟩ := h
  have hperiod := isFinite_of_between hshort hlong
  obtain ⟨hrate, -⟩ := (isPositive_iff _).mp q.positive
  have hround : ∀ t ∈ q.scale.lowest :: q.scale.above,
      RoundsTo (exact q.sampleRate / exact t.frequency)
        (q.sampleRate / t.frequency) := by
    intro t ht
    obtain ⟨hfinite, hpos⟩ := (isPositive_iff _).mp (q.scale.audible t ht)
    exact div_roundsTo hrate hfinite hpos.ne'
  exact ⟨hperiod, (hround _ q.scale.highest_mem).lt_exact hperiod hshort,
    (hround _ List.mem_cons_self).exact_lt hperiod hlong⟩

theorem InRange.frequency_bounds (h : q.InRange period) :
    IsPositive period ∧ (q.sampleRate / period).isFinite = true ∧
      exact q.scale.lowest.frequency ≤ exact (q.sampleRate / period) ∧
      exact (q.sampleRate / period) ≤ exact q.scale.highest.frequency := by
  obtain ⟨hfinite, hshort, hlong⟩ := h.exact_bounds
  obtain ⟨hrate, hratepos⟩ := (isPositive_iff _).mp q.positive
  obtain ⟨-, hlowpos⟩ :=
    (isPositive_iff _).mp (q.scale.audible _ List.mem_cons_self)
  obtain ⟨-, hhighpos⟩ :=
    (isPositive_iff _).mp (q.scale.audible _ q.scale.highest_mem)
  have hpos : 0 < exact period := (div_pos hratepos hhighpos).trans hshort
  have hlow : exact q.scale.lowest.frequency ≤
      exact q.sampleRate / exact period := by
    rw [lt_div_iff₀ hlowpos] at hlong
    rw [le_div_iff₀ hpos, mul_comm]
    exact hlong.le
  have hhigh : exact q.sampleRate / exact period ≤
      exact q.scale.highest.frequency := by
    rw [div_lt_iff₀ hhighpos] at hshort
    rw [div_le_iff₀ hpos, mul_comm]
    exact hshort.le
  have hbound : |exact q.sampleRate / exact period| ≤
      exact q.scale.highest.frequency := by
    rwa [abs_of_pos (div_pos hratepos hpos)]
  obtain ⟨hfrequency, hexact⟩ :=
    (div_roundsTo hrate hfinite hpos.ne').finite_of_abs_le
    (onGrid_exact _) ((le_abs_self _).trans_lt (abs_exact_lt _)) hbound
  rw [hexact]
  exact ⟨(isPositive_iff _).mpr ⟨hfinite, hpos⟩, hfrequency,
    (onGrid_exact _).le_nearest hlow, (onGrid_exact _).nearest_le hhigh⟩

/-- Every period in range has a note. -/
theorem InRange.isSome_note? (h : q.InRange period) :
    (q.note? period).isSome = true := by
  obtain ⟨hpositive, hfinite, hlow, hhigh⟩ := h.frequency_bounds
  have htone := Scale.isSome_nearest? hfinite hlow hhigh
  rw [note?, Option.isSome_map, tone?, frequency?, if_pos hpositive,
    Option.bind_some]
  exact htone

end Quantizer

end PitchFollower
