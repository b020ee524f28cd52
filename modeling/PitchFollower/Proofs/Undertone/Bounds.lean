import PitchFollower.Proofs.Single.Bits
import PitchFollower.Proofs.Single.Errors
import PitchFollower.Proofs.Undertone.Outputs

/-!
# Bounds of a voice

What a voice puts out on a sample is bounded by the product of its gain, its
level and its weights at that moment, computed as the voice computes it.
Smoothing feeds the output back, with four roundings on each sample.  Their
errors do not build up: where the output has come close to its bound, the
weighted mean falls short of it by more than the roundings can add.
-/

namespace PitchFollower.Undertone.Voice

open Single

/-! ## Levels -/

section Level

variable {v : Voice} (haccepted : v.settings.Accepted)

include haccepted

/-- The level is what the energy has above the noise floor, rounded once and
held back at the ceiling.  The difference may overflow, but only below zero. -/
theorem exact_level (henergy : v.energy.isFinite = true) :
    v.level.isFinite = true ∧
      exact v.level =
        match v.settings.energyCeiling with
        | none => max (nearest (exact v.energy - exact v.settings.noiseFloor)) 0
        | some c =>
          min (max (nearest (exact v.energy - exact v.settings.noiseFloor)) 0)
            (exact c) := by
  obtain ⟨hfinite, hnonneg⟩ :=
    (VoiceSettings.isAmount_iff _).mp haccepted.noiseFloor
  have hsub := sub_roundsTo henergy hfinite
  have hmost : nearest (exact v.energy - exact v.settings.noiseFloor) <
      2 ^ 128 := by
    have hle := (onGrid_exact v.energy).nearest_le (sub_le_self _ hnonneg)
    exact hle.trans_lt ((le_abs_self _).trans_lt (abs_exact_lt v.energy))
  have habove := hsub.larger_zero hmost
  unfold level
  cases hceiling : v.settings.energyCeiling with
  | none => exact habove
  | some c =>
    have hc := (haccepted.ceiling c (Option.mem_def.mpr hceiling)).1
    have hsmaller := smaller_finite habove.1 hc
    rwa [habove.2] at hsmaller

/-- An infinite energy reaches the ceiling, if there is one. -/
theorem level_of_positive_infinity
    (henergy : unpacked v.energy = .infinity .positive) :
    v.level = v.settings.energyCeiling.getD v.energy := by
  unfold level
  rw [sub_of_infinity henergy haccepted.noiseFloor.1,
    larger_zero_of_positive_infinity henergy]
  cases hceiling : v.settings.energyCeiling with
  | none => rfl
  | some c =>
    have hc := (haccepted.ceiling c (Option.mem_def.mpr hceiling)).1
    have hlt : c < v.energy := lt_positive_infinity hc henergy
    change smaller v.energy c = c
    rw [smaller, if_pos hlt, ite_self]

theorem level_of_negative_infinity
    (henergy : unpacked v.energy = .infinity .negative) : v.level = 0 := by
  unfold level
  rw [sub_of_infinity henergy haccepted.noiseFloor.1,
    larger_zero_of_negative_infinity henergy]
  cases hceiling : v.settings.energyCeiling with
  | none => rfl
  | some c =>
    obtain ⟨hc, hnonneg⟩ :=
      (VoiceSettings.isAmount_iff c).mp
        (haccepted.ceiling c (Option.mem_def.mpr hceiling))
    have hnot : ¬ c < 0 := by
      rw [neg_iff hc]
      exact not_lt.mpr hnonneg
    change smaller 0 c = 0
    rw [smaller, if_neg hnot]
    rfl

end Level

/-! ## Unsmoothed outputs -/

theorem level_nonneg {v : Voice} (haccepted : v.settings.Accepted) :
    0 ≤ v.level := by
  unfold level
  cases hceiling : v.settings.energyCeiling with
  | none => exact larger_zero_nonneg _
  | some c =>
    have hc := (haccepted.ceiling c (Option.mem_def.mpr hceiling)).2
    dsimp only
    unfold smaller
    split_ifs
    · exact hc
    · exact hc
    · exact larger_zero_nonneg _

/-- The output before smoothing never exceeds the product of the gain, the level
and the weights, if that product is finite.  What the level is for an energy is
told by `exact_level`, `level_of_positive_infinity` and
`level_of_negative_infinity`. -/
theorem synthesize_le_peak {quantizer : Quantizer} {settings : VoiceSettings}
    {size : ℕ} {v : Voice} (hv : ofSettings quantizer settings size = .ok v)
    (hsize : size < 2 ^ 64) (energy lastOutput : Float32) (m : PeriodMeter)
    (hpeak :
      (settings.peak
        ({ v with energy, lastOutput } : Voice).level).isFinite = true) :
    (({ v with energy, lastOutput } : Voice).synthesize m).isFinite = true ∧
      |exact (({ v with energy, lastOutput } : Voice).synthesize m)| ≤
        exact (settings.peak
          ({ v with energy, lastOutput } : Voice).level) := by
  obtain ⟨hfault, htable, rfl, -⟩ := ofSettings_ok hv
  have haccepted := VoiceSettings.accepted_of_fault? hfault
  generalize hnow : ({ v with energy, lastOutput } : Voice) = now at *
  have hsettings : now.settings = v.settings := hnow ▸ rfl
  have hvalues : ∀ phase, Within 1 (now.table.lookUp phase) :=
    hnow ▸ Wavetable.within_lookUp htable hsize
  rw [← hsettings] at haccepted hpeak ⊢
  have hlevel : now.level.isFinite = true :=
    (isFinite_of_mul (isFinite_of_mul hpeak).1).2
  have hnonneg := level_nonneg haccepted
  rw [le_iff rfl hlevel, exact_zero] at hnonneg
  have hbound := within_synthesize (m := m) haccepted hvalues
    ⟨hlevel, (abs_of_nonneg hnonneg).le⟩ hpeak
  exact ⟨hbound.isFinite, hbound.abs_le⟩

/-- Settings that turn the undertones round and keep them low. -/
def inverted : VoiceSettings :=
  { VoiceSettings.standard with
    gain := -2
    weights := ⟨0.5, -1, 0.25⟩
    energyCeiling := some 0.5 }

/-- An infinite energy, held back by the ceiling. -/
theorem inverted_le_peak :
    ∃ v, ofSettings coarse inverted 8 = .ok v ∧
      (8 < 2 ^ 64 ∧
        (inverted.peak
          ({ v with energy := 1 / 0, lastOutput := 0 } :
            Voice).level).isFinite = true) ∧
      (({ v with energy := 1 / 0, lastOutput := 0 } : Voice).synthesize
        (PeriodMeter.after alternating 9) == 0) = false ∧
      (({ v with energy := 1 / 0, lastOutput := 0 } : Voice).synthesize
        (PeriodMeter.after alternating 9)).isFinite = true ∧
      |exact (({ v with energy := 1 / 0, lastOutput := 0 } : Voice).synthesize
          (PeriodMeter.after alternating 9))| ≤
        exact (inverted.peak
          ({ v with energy := 1 / 0, lastOutput := 0 } : Voice).level) := by
  have hv := ofSettings_eq_ok coarse
    (show inverted.fault? = none by decide +kernel) (show 0 < 8 by decide)
  have hpeak :
      (inverted.peak
        (⟨coarse, inverted, .sine 8 (by decide), 1 / 0, 0⟩ :
          Voice).level).isFinite = true := by
    decide +kernel
  exact ⟨_, hv, ⟨by norm_num, hpeak⟩, by decide +kernel,
    synthesize_le_peak hv (by norm_num) (1 / 0) 0
      (PeriodMeter.after alternating 9) hpeak⟩

/-! ## Smoothing -/

section Smoothing

variable {k value last : Float32} {b most : ℚ}

/-- The divisor of the weighted mean may have been rounded down. -/
theorem succ_bounds (hk : k.isFinite = true) (hnonneg : 0 ≤ exact k)
    (hmost : exact k ≤ 1024) :
    (k + 1).isFinite = true ∧ 1 ≤ exact (k + 1) ∧
      exact k + 1 - slack (exact k + 1) ≤ exact (k + 1) := by
  have hsum := add_roundsTo hk (show (1 : Float32).isFinite = true from rfl)
  have habs : |exact k + 1| = exact k + 1 := abs_of_nonneg (by linarith)
  rw [exact_one] at hsum
  obtain ⟨hfinite, hnear⟩ := hsum.near (by rw [habs]; norm_num; linarith)
  rw [habs] at hnear
  refine ⟨hfinite, ?_, by linarith [(abs_le.mp hnear).1]⟩
  rw [hsum.exact_eq hfinite]
  exact onGrid_one.le_nearest (by linarith)

theorem within_numerator (hk : k.isFinite = true) (hnonneg : 0 ≤ exact k)
    (hk' : exact k ≤ 1024) (hvalue : Within b value) (hlast : Within most last)
    (hb : b ≤ 2 ^ (60 : ℤ)) (hmost : most ≤ 2 ^ (61 : ℤ)) {r : ℚ}
    (hr : r = b + (exact k * most + slack (exact k * most))) :
    Within (r + slack r) (value + k * last) := by
  have hscaled : exact k * most ≤ 1024 * 2 ^ (61 : ℤ) :=
    mul_le_mul hk' hmost hlast.nonneg (by norm_num)
  have hfeedback :
      Within (exact k * most + slack (exact k * most)) (k * last) := by
    apply (mul_roundsTo hk hlast.isFinite).within_slack
    · rw [abs_mul, abs_of_nonneg hnonneg]
      exact mul_le_mul_of_nonneg_left hlast.abs_le hnonneg
    · exact hscaled.trans (by norm_num)
  apply (add_roundsTo hvalue.isFinite hfeedback.isFinite).within_slack
  · rw [hr]
    exact (abs_add_le _ _).trans (add_le_add hvalue.abs_le hfeedback.abs_le)
  · rw [hr]
    unfold slack
    norm_num at hb hscaled ⊢
    linarith

/-- What is left of a bound by the weighted mean is more than what its roundings
can take up, if the last output has a weight of at most 1024. -/
theorem mean_add_slack_le {k d r : ℚ} (hb : 2 ^ (-60 : ℤ) ≤ b)
    (hmost : most = b * (1 + 2 ^ (-10 : ℤ))) (hk : 0 ≤ k) (hk' : k ≤ 1024)
    (hd : k + 1 - slack (k + 1) ≤ d)
    (hr : r = b + (k * most + slack (k * most))) :
    r + slack r ≤ most * (1 - 2 ^ (-23 : ℤ)) * d := by
  have hpos : 0 < b := (two_zpow_pos _).trans_le hb
  have hscale : 0 ≤ most * (1 - 2 ^ (-23 : ℤ)) := by
    rw [hmost]
    norm_num
    exact hpos.le
  have hdivisor := mul_le_mul_of_nonneg_left hd hscale
  have hfeedback : k * b ≤ 1024 * b := mul_le_mul_of_nonneg_right hk' hpos.le
  have hnonneg : 0 ≤ k * b := mul_nonneg hk hpos.le
  subst hr hmost
  unfold slack at *
  norm_num at *
  linarith

/-- The weighted mean of a value and the last output keeps the bound of the last
output, which is a little higher than that of the value. -/
theorem within_smooth_of_margin {v : Voice} (haccepted : v.settings.Accepted)
    (hweight : v.settings.smoothing ≤ 1024) (hb : 2 ^ (-60 : ℤ) ≤ b)
    (hb' : b ≤ 2 ^ (60 : ℤ)) (hmost : most = b * (1 + 2 ^ (-10 : ℤ)))
    (hvalue : Within b value) (hlast : Within most v.lastOutput) :
    Within most (v.smooth value) := by
  obtain ⟨hfinite, hnonneg⟩ :=
    (VoiceSettings.isAmount_iff _).mp haccepted.smoothing
  have hthousand : exact 1024 = 1024 := by decide +kernel
  have hle : b ≤ most ∧ most ≤ 2 ^ (61 : ℤ) := by
    have hpos := hvalue.nonneg
    rw [hmost]
    norm_num at hb' ⊢
    constructor <;> linarith
  rw [le_iff hfinite rfl, hthousand] at hweight
  unfold smooth
  dsimp only
  split_ifs with hpositive
  · generalize v.settings.smoothing = k at *
    obtain ⟨hsucc, hone, hdivisor⟩ := succ_bounds hfinite hnonneg hweight
    have hsum :=
      within_numerator hfinite hnonneg hweight hvalue hlast hb' hle.2 rfl
    have hpos : 0 < exact (k + 1) := zero_lt_one.trans_le hone
    have hquotient :
        Within (most * (1 - 2 ^ (-23 : ℤ)) + slack (most * (1 - 2 ^ (-23 : ℤ))))
        ((value + k * v.lastOutput) / (k + 1)) := by
      apply (div_roundsTo hsum.isFinite hsucc hpos.ne').within_slack
      · rw [abs_div, abs_of_pos hpos, div_le_iff₀ hpos]
        exact hsum.abs_le.trans
          (mean_add_slack_le hb hmost hnonneg hweight hdivisor rfl)
      · have := hle.2
        norm_num at this ⊢
        linarith
    refine hquotient.mono ?_
    have hleast := hb.trans hle.1
    unfold slack
    norm_num at hleast ⊢
    linarith
  · exact hvalue.mono hle.1

end Smoothing

/-! ## Runs -/

/-- The voice after `n` samples, on each of which it is told a meter and the
cycle that the sample has closed, if any. -/
def afterSounding (v : Voice) (told : ℕ → PeriodMeter × Option Cycle) :
    ℕ → Voice
  | 0 => v
  | n + 1 => ((v.afterSounding told n).sound (told n).1 (told n).2).1

/-- What the voice puts out on a sample. -/
def answer (v : Voice) (told : ℕ → PeriodMeter × Option Cycle) (n : ℕ) :
    Float32 :=
  ((v.afterSounding told n).sound (told n).1 (told n).2).2

/-- What the voice would put out on a sample without smoothing. -/
def unsmoothed (v : Voice) (told : ℕ → PeriodMeter × Option Cycle) (n : ℕ) :
    Float32 :=
  ((v.afterSounding told n).charged (told n).2).synthesize (told n).1

/-- What a voice is told by a meter that hears a signal from its start. -/
def metered (signal : ℕ → Float32) (n : ℕ) : PeriodMeter × Option Cycle :=
  (PeriodMeter.after signal (n + 1), PeriodMeter.reported signal n)

section Run

variable (v : Voice) (told : ℕ → PeriodMeter × Option Cycle) (n : ℕ)

theorem answer_eq :
    v.answer told n =
      ((v.afterSounding told n).charged (told n).2).smooth
        (v.unsmoothed told n) := by
  rw [answer, sound_eq]
  rfl

theorem lastOutput_afterSounding_succ :
    (v.afterSounding told (n + 1)).lastOutput = v.answer told n := by
  rw [afterSounding, answer, sound_eq]

theorem settings_afterSounding :
    (v.afterSounding told n).settings = v.settings := by
  induction n with
  | zero => rfl
  | succ n ih =>
    rw [afterSounding, sound_eq]
    exact ih

end Run

/-- However long a new voice sounds, smoothing with a weight of at most 1024
never puts out more than the largest value before smoothing, but for one part in
1024. -/
theorem smoothed_outputs_bounded {quantizer : Quantizer}
    {settings : VoiceSettings} {size : ℕ} {v : Voice}
    (hv : ofSettings quantizer settings size = .ok v)
    (hweight : settings.smoothing ≤ 1024) {b : ℚ} (hb : 2 ^ (-60 : ℤ) ≤ b)
    (hb' : b ≤ 2 ^ (60 : ℤ)) {told : ℕ → PeriodMeter × Option Cycle} {n : ℕ}
    (hvalue : ∀ i ≤ n, Within b (v.unsmoothed told i)) :
    Within (b * (1 + 2 ^ (-10 : ℤ))) (v.answer told n) := by
  obtain ⟨hfault, -, rfl, -, hsilent⟩ := ofSettings_ok hv
  have haccepted := VoiceSettings.accepted_of_fault? hfault
  have hstep : ∀ i ≤
    n, Within (b * (1 + 2 ^ (-10 : ℤ))) (v.afterSounding told i).lastOutput →
      Within (b * (1 + 2 ^ (-10 : ℤ))) (v.answer told i) := by
    intro i hi hlast
    have hsettings : ((v.afterSounding told i).charged (told i).2).settings =
        v.settings :=
      v.settings_afterSounding told i
    rw [answer_eq]
    exact within_smooth_of_margin (hsettings ▸ haccepted) (hsettings ▸ hweight)
      hb hb' rfl
      (hvalue i hi) hlast
  have hrun : ∀ i ≤ n,
      Within (b * (1 + 2 ^ (-10 : ℤ))) (v.afterSounding told i).lastOutput := by
    intro i
    induction i with
    | zero =>
      intro _
      change Within _ v.lastOutput
      rw [hsilent]
      have hpos := (hvalue 0 (Nat.zero_le n)).nonneg
      exact within_zero.mono (by positivity)
    | succ i ih =>
      intro hi
      rw [lastOutput_afterSounding_succ]
      exact hstep i (Nat.le_of_succ_le hi) (ih (Nat.le_of_succ_le hi))
  exact hstep n le_rfl (hrun n le_rfl)

theorem lingering_outputs_bounded :
    ∃ v, ofSettings coarse lingering 8 = .ok v ∧
      (lingering.smoothing ≤ 1024 ∧
        (2 ^ (-60 : ℤ) ≤ (3 : ℚ) ∧ (3 : ℚ) ≤ 2 ^ (60 : ℤ)) ∧
        ∀ i ≤ 5, Within 3 (v.unsmoothed (metered alternating) i)) ∧
      (v.answer (metered alternating) 5 == 0) = false ∧
      Within (3 * (1 + 2 ^ (-10 : ℤ))) (v.answer (metered alternating) 5) := by
  have hv := ofSettings_eq_ok coarse
    (show lingering.fault? = none by decide +kernel) (show 0 < 8 by decide)
  have hweight : lingering.smoothing ≤ 1024 := by decide +kernel
  have hb : 2 ^ (-60 : ℤ) ≤ (3 : ℚ) ∧ (3 : ℚ) ≤ 2 ^ (60 : ℤ) := by norm_num
  have hvalues : ∀ i < 6,
      ((⟨coarse, lingering, .sine 8 (by decide), 0, 0⟩ : Voice).unsmoothed
        (metered alternating) i).isFinite = true ∧
      |exact
        ((⟨coarse, lingering, .sine 8 (by decide), 0, 0⟩ : Voice).unsmoothed
        (metered alternating) i)| ≤ 3 := by
    decide +kernel
  have hwithin : ∀ i ≤
    5, Within 3 ((⟨coarse, lingering, .sine 8 (by decide), 0, 0⟩ :
      Voice).unsmoothed (metered alternating) i) :=
    fun i hi => ⟨(hvalues i (Nat.lt_succ_of_le hi)).1,
      (hvalues i (Nat.lt_succ_of_le hi)).2⟩
  exact ⟨_, hv, ⟨hweight, hb, hwithin⟩, by decide +kernel,
    smoothed_outputs_bounded hv hweight hb.1 hb.2 hwithin⟩

end PitchFollower.Undertone.Voice
