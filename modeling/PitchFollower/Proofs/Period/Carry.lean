import PitchFollower.Proofs.Period.Reports
import PitchFollower.Proofs.Single.Magnitude
import PitchFollower.Proofs.Single.Midpoints

/-!
# The carried fraction

Behind a falling crossing the count starts with the part of the closing sample
that lies after the crossing.  This part is less than a sample if the sample
before the crossing was positive, but for one case: a positive sample that is
too faint beside the negative one is lost when the two are subtracted.  The
crossing is then placed as if there had been silence, and a whole sample is
carried over.
-/

namespace PitchFollower

open Single

/-! ## Crossings -/

section Fraction

variable {last first : Float32}

/-- The sample `last` makes no difference when `first` is subtracted from it. -/
def Vanishes (last first : Float32) : Prop :=
  nearest (|exact first| + exact last) = |exact first|

/-- The crossing lies a whole sample back if the sample before it vanishes, and
only then. -/
theorem fraction_lt_one_iff
    (hlast : last.isFinite = true) (hfirst : first.isFinite = true)
    (hnonneg : 0 ≤ exact last) (hneg : exact first < 0) :
    exact (Crossing.fraction last first) < 1 ↔ ¬ Vanishes last first := by
  have hpart : exact (-first) = |exact first| := by
    rw [exact_neg, abs_of_neg hneg]
  have hdrop : exact last - exact first = |exact first| + exact last := by
    rw [abs_of_neg hneg]
    ring
  have hpos : 0 < |exact first| := abs_pos.mpr hneg.ne
  have hcases := fraction_cases hlast hfirst hnonneg hneg
  rw [hpart, hdrop] at hcases
  rw [Vanishes]
  obtain ⟨-, ⟨hle, hexact⟩ | ⟨hrange, hexact⟩⟩ := hcases
  · rw [hexact]
    constructor
    · intro hlt heq
      rw [heq, div_self hpos.ne', nearest_of_onGrid onGrid_one] at hlt
      exact lt_irrefl 1 hlt
    · intro hne
      exact (onGrid_abs_exact first).nearest_div_lt_one hpos (onGrid_nearest _)
        (lt_of_le_of_ne hle (Ne.symm hne))
  · rw [hexact]
    refine iff_of_true zero_lt_one fun hvanishes => hrange.not_gt ?_
    rw [hvanishes, abs_abs]
    exact abs_exact_lt first

theorem not_vanishes_of_lt
    (hneg : exact first < 0) (hfaint : |exact first| < 2 ^ 24 * exact last) :
    ¬ Vanishes last first := by
  have hpos : 0 < |exact first| := abs_pos.mpr hneg.ne
  have hgrid : OnGrid |exact first| := onGrid_abs_exact first
  exact (hgrid.lt_nearest_add hpos (onGrid_exact last) (by linarith) hfaint).ne'

theorem vanishes_of_le
    (hnonneg : 0 ≤ exact last) (hneg : exact first < 0)
    (hfaint : 2 ^ 25 * exact last ≤ |exact first|) : Vanishes last first :=
  (onGrid_abs_exact first).nearest_add_of_faint (abs_pos.mpr hneg.ne)
    hnonneg hfaint

end Fraction

/-! ## Periods -/

/-- A period lasts at least one sample, and no longer than a count does. -/
structure IsPeriod (p : Float32) : Prop where
  isFinite : p.isFinite = true
  one_le : 1 ≤ exact p
  le_most : exact p ≤ 2 ^ 24

namespace PeriodMeter

variable {signal : ℕ → Float32} {n : ℕ}

theorem isPeriod_of_reported {c : Cycle} (hc : reported signal n = some c) :
    IsPeriod c.period := by
  obtain ⟨hfinite, hone⟩ := period_bounds hc
  have htracks := tracks_after signal n
  have hcount := htracks.isCount.add_one
  have hfraction := htracks.isFraction (fallsAt_of_reported hc).1
  refine ⟨hfinite, hone, ?_⟩
  rw [period_of_reported hc, (sub_finite hcount hfraction).2]
  apply (onGrid_zpow (e := 24) (by norm_num)).nearest_le
  exact (sub_le_self _ hfraction.nonneg).trans hcount.le_most

theorem isPeriod_after (signal : ℕ → Float32) (n : ℕ) :
    IsPeriod (after signal n).period := by
  apply holds_of_last_report (P := fun period _ => IsPeriod period)
  · exact ⟨by decide +kernel, by decide +kernel, by decide +kernel⟩
  · intro c hc
    obtain ⟨i, -, hc⟩ := mem_reports_iff.mp hc
    exact isPeriod_of_reported hc

/-! ## Runs -/

theorem isFraction_elapsed (hfalls : FallsAt (silenced signal) n) :
    IsFraction (after signal (n + 1)).elapsed := by
  rw [elapsed_of_fallsAt hfalls]
  exact (tracks_after signal n).isFraction hfalls

/-- Directly behind a report less has elapsed than the period that it closes. -/
theorem elapsed_le_period_of_reported {c : Cycle}
    (hc : reported signal n = some c) :
    exact (after signal (n + 1)).elapsed ≤
      exact (after signal (n + 1)).period := by
  rw [(held_of_reported hc).1]
  exact (isFraction_elapsed (fallsAt_of_reported hc).1).le_one.trans
    (period_bounds hc).2

end PeriodMeter

/-- The sample before the `n`-th one, and silence before the first. -/
def before (s : ℕ → Float32) : ℕ → Float32
  | 0 => 0
  | n + 1 => s n

namespace PeriodMeter

variable {signal : ℕ → Float32} {n : ℕ}

theorem previous_after (signal : ℕ → Float32) (n : ℕ) :
    (after signal n).previous = before (silenced signal) n := by
  cases n with
  | zero => exact (tracks_after signal 0).silentBefore rfl
  | succ n => exact (tracks_after signal (n + 1)).previous n rfl

/-- Behind a falling crossing the meter has counted a part of a sample.  It is
less than a whole one unless the sample before the crossing vanishes beside the
one behind it.  A sample does not vanish beside one of less than `2 ^ 24` times
its magnitude, and it does beside one of `2 ^ 25` times its magnitude or more,
as silence does beside every sample. -/
theorem carried_fraction (hfalls : FallsAt (silenced signal) n) :
    IsFraction (after signal (n + 1)).elapsed ∧
    (exact (after signal (n + 1)).elapsed < 1 ↔
      ¬ Vanishes (before (silenced signal) n) (silenced signal n)) ∧
    (|exact (silenced signal n)| < 2 ^ 24 * exact (before (silenced signal) n) →
      exact (after signal (n + 1)).elapsed < 1) ∧
    (2 ^ 25 * exact (before (silenced signal) n) ≤ |exact (silenced signal n)| →
      exact (after signal (n + 1)).elapsed = 1) := by
  have hfraction := isFraction_elapsed hfalls
  have hneg : exact (silenced signal n) < 0 :=
    (neg_iff (isFinite_silenced signal n)).mp hfalls.1
  obtain ⟨hfinite, hnonneg⟩ := (tracks_after signal n).zero_le_previous hfalls.2
  have hone :=
    fraction_lt_one_iff hfinite (isFinite_silenced signal n) hnonneg hneg
  rw [← elapsed_of_fallsAt hfalls, previous_after] at hone
  rw [previous_after] at hnonneg
  refine ⟨hfraction, hone,
    fun hloud => hone.mpr (not_vanishes_of_lt hneg hloud), fun hfaint => ?_⟩
  by_contra hne
  exact hone.mp (lt_of_le_of_ne hfraction.le_one hne)
    (vanishes_of_le hnonneg hneg hfaint)

/-- A first sample, and then nothing but samples of `-1`. -/
def raised (first : Float32) (n : ℕ) : Float32 :=
  if n = 0 then first else -1

theorem fallsAt_raised {first : Float32} (h : 0 < finiteOrZero first) :
    FallsAt (silenced (raised first)) 1 := by
  have hfinite := isFinite_finiteOrZero first
  have hneg : finiteOrZero (-1) < 0 := by decide +kernel
  refine ⟨hneg, (risenBefore_succ_of_nonzero ?_).mpr h⟩
  exact (beq_zero_eq_false_iff hfinite).mpr ((pos_iff hfinite).mp h).ne'

/-- A sample a ten millionth as large as the next one does not vanish beside
it. -/
theorem carried_fraction_raised :
    FallsAt (silenced (raised 1e-7)) 1 ∧
      |exact (silenced (raised 1e-7) 1)| <
        2 ^ 24 * exact (before (silenced (raised 1e-7)) 1) ∧
      (0 < exact (after (raised 1e-7) 2).elapsed ∧
        exact (after (raised 1e-7) 2).elapsed < 1) := by
  have hfalls : FallsAt (silenced (raised 1e-7)) 1 :=
    fallsAt_raised (by decide +kernel)
  have hloud : |exact (silenced (raised 1e-7) 1)| <
      2 ^ 24 * exact (before (silenced (raised 1e-7)) 1) := by
    decide +kernel
  exact ⟨hfalls, hloud, by decide +kernel,
    (carried_fraction hfalls).2.2.1 hloud⟩

/-- Behind a sample a hundred millionth as large as the next one a whole sample
is carried over, though it is positive. -/
theorem faint_rise_carries_whole_sample :
    FallsAt (silenced (raised 1e-8)) 1 ∧ 0 < before (silenced (raised 1e-8)) 1 ∧
      exact (after (raised 1e-8) 2).elapsed = 1 :=
  ⟨fallsAt_raised (by decide +kernel), by decide +kernel, by decide +kernel⟩

end PeriodMeter

end PitchFollower
