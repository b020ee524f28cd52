import PitchFollower.Proofs.Period.Carry
import PitchFollower.Proofs.Period.Drift
import PitchFollower.Proofs.Single.Conversions
import PitchFollower.Proofs.Single.Errors
import PitchFollower.Undertone.Voice

/-!
# Phases

A counter of the meter says which cycle an undertone is in, and the time since
the last crossing how much of this cycle has passed.  As long as no more than a
whole period has passed, the phase stays within the part of the undertone that
belongs to the cycle, so the undertones are locked to the cycles of the signal.
A phase is computed with four roundings, each of them by one part in `2 ^ 24` at
most.
-/

namespace PitchFollower.Undertone.Voice

open Single

/-! ## Exact phases -/

/-- The phase of an undertone before any rounding. -/
def exactPhase (elapsed period : ℚ) (counter modulus : ℕ) : ℚ :=
  (elapsed + period * counter) / (period * modulus)

section Exact

variable {elapsed period : ℚ} (counter modulus : ℕ)

theorem exactPhase_eq (hpos : 0 < period) :
    exactPhase elapsed period counter modulus = (counter + elapsed / period) /
      modulus := by
  rw [exactPhase, ← div_div, add_div, mul_div_cancel_left₀ _ hpos.ne', add_comm]

/-- The phase lies in the part of the undertone that belongs to the current
cycle. -/
theorem exactPhase_bounds (hnonneg : 0 ≤ elapsed) (hle : elapsed ≤ period)
    (hpos : 0 < period) :
    (counter / modulus : ℚ) ≤ exactPhase elapsed period counter modulus ∧
      exactPhase elapsed period counter modulus ≤ (counter + 1) / modulus := by
  have hlow : 0 ≤ elapsed / period := div_nonneg hnonneg hpos.le
  have hhigh : elapsed / period ≤ 1 := div_le_one_of_le₀ hle hpos.le
  rw [exactPhase_eq counter modulus hpos]
  constructor <;> gcongr
  linarith

end Exact

/-! ## Rounded phases -/

section Rounded

variable {elapsed period : Float32} {counter modulus n : ℕ}

/-- The length of a few periods is rounded once. -/
theorem periods_near (hperiod : IsPeriod period) (hn : n ≤ 16) :
    Within (2 ^ (28 : ℤ)) (period * ofNat n) ∧
      Near (2 ^ (-24 : ℤ)) (exact (period * ofNat n)) (exact period * n) := by
  have hcount : (n : ℚ) ≤ 16 := by exact_mod_cast hn
  have hproduct := mul_roundsTo hperiod.isFinite
    (ofNat_finite (n := n) (hn.trans_lt (by norm_num))).1
  rw [exact_ofNat (hn.trans (by norm_num))] at hproduct
  have hmost : |exact period * n| ≤ 2 ^ (28 : ℤ) := by
    rw [abs_of_nonneg
      (mul_nonneg (zero_le_one.trans hperiod.one_le) (Nat.cast_nonneg n))]
    calc exact period * n ≤ 2 ^ 24 * 16 :=
          mul_le_mul hperiod.le_most hcount (Nat.cast_nonneg n) (by norm_num)
      _ = 2 ^ (28 : ℤ) := by norm_num
  refine ⟨hproduct.within (onGrid_zpow (by norm_num)) (by norm_num) hmost, ?_⟩
  exact (hproduct.near_of_onPlace
    (((onGrid_exact period).onPlace.mono (le_max_right _ _)).mul_natCast n)
    (hmost.trans (by norm_num))).2

/-- The time since an undertone has come round is rounded twice. -/
theorem time_near (hcount : IsCount elapsed) (hperiod : IsPeriod period)
    (hn : counter ≤ 16) :
    (elapsed + period * ofNat counter).isFinite = true ∧
      Near (2 ^ (-22 : ℤ)) (exact (elapsed + period * ofNat counter))
        (exact elapsed + exact period * counter) := by
  obtain ⟨hwithin, hnear⟩ := periods_near hperiod hn
  have hmost :
      |exact elapsed + exact (period * ofNat counter)| ≤ 2 ^ (127 : ℤ) := by
    have hle := hcount.le_most
    calc |exact elapsed + exact (period * ofNat counter)|
        ≤ |exact elapsed| + |exact (period * ofNat counter)| := abs_add_le _ _
      _ ≤ 2 ^ 24 + 2 ^ (28 : ℤ) := by
        rw [abs_of_nonneg hcount.nonneg]
        exact add_le_add hle hwithin.abs_le
      _ ≤ 2 ^ (127 : ℤ) := by norm_num
  obtain ⟨hfinite, hsum⟩ :=
    (add_roundsTo hcount.isFinite hwithin.isFinite).near_of_onPlace
    ((onGrid_exact _).add_onPlace (onGrid_exact _)) hmost
  have hnonneg : 0 ≤ exact period * counter :=
    mul_nonneg (zero_le_one.trans hperiod.one_le) (Nat.cast_nonneg counter)
  have hunit := (two_zpow_pos (-24)).le
  refine ⟨hfinite,
    (hsum.trans (hnear.add_left hunit hnonneg hcount.nonneg) hunit).mono ?_⟩
  norm_num

/-- A phase within its cycle is off by twice what its four roundings amount to
at most. -/
theorem phase_near (hcount : IsCount elapsed) (hperiod : IsPeriod period)
    (hle : exact elapsed ≤ exact period) (hcounter : counter < modulus)
    (hmodulus : modulus ≤ 16) :
    (phase elapsed period counter modulus).isFinite = true ∧
      |exact (phase elapsed period counter modulus) -
        exactPhase (exact elapsed) (exact period) counter modulus| ≤
          2 ^ (-21 : ℤ) := by
  have hpos : 0 < exact period := zero_lt_one.trans_le hperiod.one_le
  have hmodpos : (0 : ℚ) < modulus := by
    exact_mod_cast Nat.zero_lt_of_lt hcounter
  have hround : 0 < exact period * modulus := mul_pos hpos hmodpos
  obtain ⟨htime, htimenear⟩ :=
    time_near hcount hperiod (hcounter.le.trans hmodulus)
  obtain ⟨hlength, hlengthnear⟩ := periods_near hperiod hmodulus
  have hquotient := htimenear.div hlengthnear (by norm_num) hround
  have hlengthpos := hlengthnear.pos (by norm_num) hround
  have hrounded := div_roundsTo htime hlength.isFinite hlengthpos.ne'
  have hexact :
      |exactPhase (exact elapsed) (exact period) counter modulus| ≤ 1 := by
    obtain ⟨hlow, hhigh⟩ :=
      exactPhase_bounds counter modulus hcount.nonneg hle hpos
    have hlast : (counter : ℚ) + 1 ≤ modulus := by exact_mod_cast hcounter
    rw [abs_of_nonneg (le_trans (by positivity) hlow)]
    exact hhigh.trans (div_le_one_of_le₀ hlast hmodpos.le)
  change Near _ _ (exactPhase _ _ _ _) at hquotient
  change RoundsTo _ (phase _ _ _ _) at hrounded
  generalize exactPhase (exact elapsed) (exact period) counter modulus =
    goal at *
  generalize exact (elapsed + period * ofNat counter) /
  exact (period * ofNat modulus) = q at *
  have herror : |q - goal| ≤ 11 * 2 ^ (-25 : ℤ) := by
    have hnear : Near (11 * 2 ^ (-25 : ℤ)) q goal :=
      hquotient.mono (by norm_num)
    exact le_trans hnear (mul_le_of_le_one_left (by norm_num) hexact)
  have hmost : |q| ≤ 2 := by
    have := abs_sub_abs_le_abs_sub q goal
    norm_num at herror
    linarith
  obtain ⟨hfinite, hslack⟩ := hrounded.near (hmost.trans (by norm_num))
  refine ⟨hfinite, ?_⟩
  calc |exact (phase elapsed period counter modulus) - goal|
      ≤ |exact (phase elapsed period counter modulus) - q| + |q - goal| :=
        abs_sub_le _ _ _
    _ ≤ slack 2 + 11 * 2 ^ (-25 : ℤ) :=
      add_le_add (hslack.trans (slack_mono hmost)) herror
    _ ≤ 2 ^ (-21 : ℤ) := by norm_num [slack]

end Rounded

/-! ## Runs -/

theorem lt_modulus_of_mem {counters : PhaseCounters} {counter modulus : ℕ}
    (h : (counter, modulus) ∈ counters.toList.zip PhaseCounters.moduli) :
    counter < modulus ∧ modulus ≤ 16 := by
  simp only [PhaseCounters.toList, PhaseCounters.moduli, List.zip_cons_cons,
    List.zip_nil_left, List.mem_cons, Prod.mk.injEq, List.not_mem_nil,
    or_false] at h
  rcases h with ⟨rfl, rfl⟩ | ⟨rfl, rfl⟩ | ⟨rfl, rfl⟩
  · exact ⟨counters.eighth.isLt, by norm_num⟩
  · exact ⟨counters.twelfth.isLt, by norm_num⟩
  · exact ⟨counters.sixteenth.isLt, le_rfl⟩

/-- The phase of an undertone lies in the part of it that belongs to the current
cycle, and is looked up with an error of `2 ^ (-21)` at most. -/
structure Locked (m : PeriodMeter) (counter modulus : ℕ) : Prop where
  low : (counter / modulus : ℚ) ≤
    exactPhase (exact m.elapsed) (exact m.period) counter modulus
  high : exactPhase (exact m.elapsed) (exact m.period) counter modulus ≤
    (counter + 1) / modulus
  isFinite : (phase m.elapsed m.period counter modulus).isFinite = true
  near : |exact (phase m.elapsed m.period counter modulus) -
    exactPhase (exact m.elapsed) (exact m.period) counter modulus| ≤
      2 ^ (-21 : ℤ)

/-- The undertones are locked to the cycles of a signal while no more time has
passed since the last crossing than the last period lasted.  That is so behind
every reported cycle. -/
theorem phases_locked (signal : ℕ → Float32) (n : ℕ) :
    ((PeriodMeter.reported signal n).isSome = true →
      (PeriodMeter.after signal (n + 1)).elapsed ≤
        (PeriodMeter.after signal (n + 1)).period) ∧
    ((PeriodMeter.after signal n).elapsed ≤
      (PeriodMeter.after signal n).period →
      ∀ place ∈
        (PeriodMeter.after signal n).counters.toList.zip PhaseCounters.moduli,
        Locked (PeriodMeter.after signal n) place.1 place.2) := by
  constructor
  · intro hsome
    obtain ⟨c, hc⟩ := Option.isSome_iff_exists.mp hsome
    rw [le_iff (PeriodMeter.tracks_after signal (n + 1)).isCount.isFinite
      (PeriodMeter.isPeriod_after signal (n + 1)).isFinite]
    exact PeriodMeter.elapsed_le_period_of_reported hc
  · rintro hle ⟨counter, modulus⟩ hplace
    obtain ⟨hcounter, hmodulus⟩ := lt_modulus_of_mem hplace
    have hcount := (PeriodMeter.tracks_after signal n).isCount
    have hperiod := PeriodMeter.isPeriod_after signal n
    rw [le_iff hcount.isFinite hperiod.isFinite] at hle
    obtain ⟨hlow, hhigh⟩ :=
      exactPhase_bounds counter modulus hcount.nonneg hle
        (zero_lt_one.trans_le hperiod.one_le)
    obtain ⟨hfinite, hnear⟩ := phase_near hcount hperiod hle hcounter hmodulus
    exact ⟨hlow, hhigh, hfinite, hnear⟩

/-- A phase near the end of its cycle, and not exact. -/
theorem phases_locked_lopsided :
    ((PeriodMeter.reported PeriodMeter.lopsided 23).isSome = true ∧
      (PeriodMeter.after PeriodMeter.lopsided 24).elapsed ≤
        (PeriodMeter.after PeriodMeter.lopsided 24).period) ∧
    (PeriodMeter.after PeriodMeter.lopsided 33).elapsed ≤
      (PeriodMeter.after PeriodMeter.lopsided 33).period ∧
    (3, 12) ∈ (PeriodMeter.after PeriodMeter.lopsided 33).counters.toList.zip
      PhaseCounters.moduli ∧
    Locked (PeriodMeter.after PeriodMeter.lopsided 33) 3 12 := by
  have hsome : (PeriodMeter.reported PeriodMeter.lopsided 23).isSome =
      true := by decide +kernel
  have hle : (PeriodMeter.after PeriodMeter.lopsided 33).elapsed ≤
      (PeriodMeter.after PeriodMeter.lopsided 33).period := by
    decide +kernel
  have hplace : (3, 12) ∈
    (PeriodMeter.after PeriodMeter.lopsided 33).counters.toList.zip
      PhaseCounters.moduli := by
    decide +kernel
  exact ⟨⟨hsome, (phases_locked _ 23).1 hsome⟩, hle, hplace,
    (phases_locked _ 33).2 hle _ hplace⟩

end PitchFollower.Undertone.Voice
