import PitchFollower.Proofs.Period.Reports
import PitchFollower.Proofs.Single.Places

/-!
# Periods do not drift

The reported periods and the samples counted since the last crossing add up to
the number of samples heard, but for the rounding of the arithmetic.  This
module keeps the books exactly: what a report loses by rounding is mostly made
up for while the next cycle is counted, so the error grows with the number of
cycles and not with that of samples.
-/

namespace PitchFollower.PeriodMeter

open Single

/-! ## The sum of the periods -/

/-- The exact sum of the reported periods. -/
def measured (signal : ℕ → Float32) (n : ℕ) : ℚ :=
  ((reports signal n).map fun c => exact c.period).sum

/-- How many samples the periods and the count since the last crossing account
for beyond those heard. -/
def drift (signal : ℕ → Float32) (n : ℕ) : ℚ :=
  measured signal n + exact (after signal n).elapsed - n

section Reports

variable {signal : ℕ → Float32} {n : ℕ}

theorem measured_succ_of_none (h : reported signal n = none) :
    measured signal (n + 1) = measured signal n := by
  rw [measured, reports_succ_of_none h, measured]

theorem measured_succ_of_some {c : Cycle} (h : reported signal n = some c) :
    measured signal (n + 1) = measured signal n + exact c.period := by
  rw [measured, reports_succ, h, List.map_append, List.sum_append, measured]
  simp

theorem length_reports_succ_of_some {c : Cycle}
    (h : reported signal n = some c) :
    (reports signal (n + 1)).length = (reports signal n).length + 1 := by
  rw [reports_succ, h, List.length_append, Option.toList_some,
    List.length_singleton]

end Reports

/-! ## The books -/

/-- A rounding error `carried` from the report before is made up for, up to the
allowance of one cycle, by every count that goes on from the fraction `f`. -/
def Absorbs (f carried : ℚ) : Prop :=
  ∀ (x : ℚ) (m : ℕ), OnGrid x → 0 ≤ x → x < 2 ^ 13 →
    |x - (f + m)| < 2 ^ lastPlace x →
    |carried + (x - (f + m))| ≤ 2 ^ (-11 : ℤ)

/-- The books after `n` samples, `m` of which belong to the current cycle, which
began with the fraction `f`.  The cycles before have gone wrong by `settled`,
not counting the rounding `carried` of the last report. -/
structure Books (signal : ℕ → Float32) (n m : ℕ) (f settled carried : ℚ) :
    Prop where
  measured_eq : measured signal n = n + settled + carried - (f + m)
  settled_le : |settled| ≤ (reports signal n).length * 2 ^ (-11 : ℤ)
  counted : |exact (after signal n).elapsed - (f + m)| <
    2 ^ lastPlace (exact (after signal n).elapsed)
  absorbs : Absorbs f carried

theorem lastPlace_le_of_lt {x : ℚ} (hnonneg : 0 ≤ x) (hx : x < 2 ^ 13) :
    lastPlace x ≤ -11 := by
  apply lastPlace_le
  · rw [abs_of_nonneg hnonneg]
    exact_mod_cast hx
  · norm_num

/-- Without a rounding error before it a count stays within the allowance. -/
theorem absorbs_zero (f : ℚ) : Absorbs f 0 := by
  intro x m _ hnonneg hx hcount
  rw [zero_add]
  exact hcount.le.trans
    (zpow_le_zpow_right₀ (by norm_num) (lastPlace_le_of_lt hnonneg hx))

/-- The rounding error of a period is absorbed by the next cycle. -/
theorem absorbs_nearest {s f : ℚ} (hs : OnGrid s) (hmost : s < 2 ^ 13)
    (hf : 0 ≤ f) (hperiod : 0 < nearest (s - f)) :
    Absorbs f (nearest (s - f) - (s - f)) := by
  intro x m hx hnonneg hxmost hcount
  have hle : nearest (s - f) ≤ s := hs.nearest_le (by linarith)
  exact abs_rounding_add_le hs hx hperiod hle hcount
    (lastPlace_le_of_lt hperiod.le (hle.trans_lt hmost))
    (lastPlace_le_of_lt hnonneg hxmost) (by norm_num)

theorem books_start (signal : ℕ → Float32) : Books signal 0 0 0 0 0 := by
  have helapsed : exact (after signal 0).elapsed = 0 := exact_zero
  refine ⟨?_, ?_, ?_, absorbs_zero 0⟩
  · simp [measured, reports]
  · simp [reports]
  · simpa [helapsed] using two_zpow_pos _

section Step

variable {signal : ℕ → Float32} {n m : ℕ} {f settled carried : ℚ}

theorem elapsed_add_one_finite (signal : ℕ → Float32) (n : ℕ) :
    exact ((after signal n).elapsed + 1) =
      nearest (exact (after signal n).elapsed + 1) :=
  (add_one_finite (tracks_after signal n).isCount).2

/-- The count of one more sample, before it is looked at for a crossing. -/
theorem Books.count_succ (h : Books signal n m f settled carried)
    (hmost : exact (after signal n).elapsed < 4096) :
    |exact ((after signal n).elapsed + 1) - (f + (m + 1 : ℕ))| <
      2 ^ lastPlace (exact ((after signal n).elapsed + 1)) := by
  have hcount := (tracks_after signal n).isCount
  have hone : lastPlace (exact (after signal n).elapsed) ≤ 0 :=
    (lastPlace_le_of_lt hcount.nonneg (hmost.trans (by norm_num))).trans
      (by norm_num)
  have hstep :=
    abs_nearest_add_one_sub_lt (onGrid_exact _) hcount.nonneg hone h.counted
  rw [elapsed_add_one_finite]
  push_cast
  rwa [← add_assoc]

theorem elapsed_add_one_lt (hmost : exact (after signal n).elapsed < 4096) :
    exact ((after signal n).elapsed + 1) < 2 ^ 13 := by
  have hgrid : OnGrid (4097 : ℕ) := onGrid_natCast (by norm_num)
  have hle : exact ((after signal n).elapsed + 1) ≤ (4097 : ℕ) := by
    rw [elapsed_add_one_finite]
    apply hgrid.nearest_le
    push_cast
    linarith
  exact hle.trans_lt (by norm_num)

theorem Books.hear_of_not_fallsAt (h : Books signal n m f settled carried)
    (hmost : exact (after signal n).elapsed < 4096)
    (hfalls : ¬ FallsAt (silenced signal) n) :
    Books signal (n + 1) (m + 1) f settled carried := by
  have hnone := reported_of_not_fallsAt hfalls
  refine ⟨?_, ?_, ?_, h.absorbs⟩
  · rw [measured_succ_of_none hnone, h.measured_eq]
    push_cast
    ring
  · rw [reports_succ_of_none hnone]
    exact h.settled_le
  · rw [elapsed_of_not_fallsAt hfalls]
    exact h.count_succ hmost

/-- A crossing on the very first sample closes no cycle: the count goes back to
the whole sample that lies behind the crossing. -/
theorem Books.hear_first_of_fallsAt (hfalls : FallsAt (silenced signal) 0) :
    Books signal 1 0 1 0 0 := by
  have helapsed : exact (after signal 1).elapsed = 1 := by
    rw [elapsed_of_fallsAt hfalls]
    change exact (Crossing.fraction 0 (silenced signal 0)) = 1
    exact fraction_after_silence rfl (isFinite_silenced signal 0) exact_zero
      ((neg_iff (isFinite_silenced signal 0)).mp hfalls.1)
  have hnone : reported signal 0 = none := reported_zero signal
  refine ⟨?_, ?_, ?_, absorbs_zero 1⟩
  · rw [measured_succ_of_none hnone]
    simp [measured, reports]
  · simp
  · simpa [helapsed] using two_zpow_pos _

/-- A reported cycle settles the books of the one before. -/
theorem Books.hear_of_fallsAt (h : Books signal n m f settled carried)
    (hmost : exact (after signal n).elapsed < 4096)
    (hfalls : FallsAt (silenced signal) n) (hn : 1 ≤ n) :
    ∃ f' settled' carried', Books signal (n + 1) 0 f' settled' carried' := by
  have htracks := tracks_after signal n
  have hfraction := htracks.isFraction hfalls
  have hcount := htracks.isCount.add_one
  have helapsed := elapsed_of_fallsAt hfalls
  obtain ⟨c, hc, -⟩ := reported_of_fallsAt hfalls hn
  have hperiod := period_of_reported hc
  have hone := (period_bounds hc).2
  generalize
    Crossing.fraction (after signal n).previous (silenced signal n) = g at *
  generalize hs : (after signal n).elapsed + 1 = s at *
  obtain ⟨hfinite, hexact⟩ := sub_finite hcount hfraction
  have hpos : 0 < nearest (exact s - exact g) := by
    rw [← hexact, ← hperiod]
    exact zero_lt_one.trans_le hone
  have hmost' : exact s < 2 ^ 13 := hs ▸ elapsed_add_one_lt hmost
  refine ⟨exact g, settled + (carried + (exact s - (f + (m + 1 : ℕ)))),
    nearest (exact s - exact g) - (exact s - exact g), ?_, ?_, ?_, ?_⟩
  · rw [measured_succ_of_some hc, h.measured_eq, hperiod, hexact]
    push_cast
    ring
  · have hstep :=
      h.absorbs (exact s) (m + 1) (onGrid_exact s) hcount.nonneg hmost'
      (hs ▸ h.count_succ hmost)
    have hlength : ((reports signal (n + 1)).length : ℚ) =
        (reports signal n).length + 1 := by
      exact_mod_cast length_reports_succ_of_some hc
    rw [hlength, add_one_mul]
    exact (abs_add_le _ _).trans (add_le_add h.settled_le hstep)
  · rw [helapsed, Nat.cast_zero, add_zero, sub_self, abs_zero]
    exact two_zpow_pos _
  · exact absorbs_nearest (onGrid_exact s) hmost' hfraction.nonneg hpos

end Step

/-! ## Runs -/

theorem exact_4096 : exact 4096 = 4096 := by
  have h : unpacked 4096 = .finite .positive (2 ^ 23) (-11) (by norm_num) := rfl
  rw [exact, h, exactOf_finite, signed]
  norm_num

theorem exact_elapsed_lt {signal : ℕ → Float32} {n : ℕ}
    (hmost : (after signal n).elapsed < 4096) :
    exact (after signal n).elapsed < 4096 := by
  rwa [lt_iff (tracks_after signal n).isCount.isFinite rfl, exact_4096] at hmost

theorem exists_books {signal : ℕ → Float32} {n : ℕ}
    (hmost : ∀ i < n, (after signal i).elapsed < 4096) :
    ∃ m f settled carried, Books signal n m f settled carried := by
  induction n with
  | zero => exact ⟨0, 0, 0, 0, books_start signal⟩
  | succ n ih =>
    obtain ⟨m, f, settled, carried, hbooks⟩ := ih fun i hi => hmost i (by omega)
    have hlast := exact_elapsed_lt (hmost n (Nat.lt_succ_self n))
    by_cases hfalls : FallsAt (silenced signal) n
    · rcases Nat.eq_zero_or_pos n with rfl | hn
      · exact ⟨0, 1, 0, 0, Books.hear_first_of_fallsAt hfalls⟩
      · obtain ⟨f', settled', carried', hnext⟩ :=
          hbooks.hear_of_fallsAt hlast hfalls hn
        exact ⟨0, f', settled', carried', hnext⟩
    · exact ⟨m + 1, f, settled, carried,
        hbooks.hear_of_not_fallsAt hlast hfalls⟩

/-- As long as no cycle is counted up to 4096 samples, the periods reported so
far and the samples since the last crossing add up to the samples heard within
`2 ^ (-11)` for each cycle reported and one more. -/
theorem abs_drift_le {signal : ℕ → Float32} {n : ℕ}
    (hmost : ∀ i ≤ n, (after signal i).elapsed < 4096) :
    |drift signal n| ≤ ((reports signal n).length + 1) * 2 ^ (-11 : ℤ) := by
  obtain ⟨m, f, settled, carried, hbooks⟩ :=
    exists_books fun i hi => hmost i hi.le
  have hcount := (tracks_after signal n).isCount
  have habsorbed := hbooks.absorbs _ m (onGrid_exact _) hcount.nonneg
    ((exact_elapsed_lt (hmost n le_rfl)).trans (by norm_num)) hbooks.counted
  have heq : drift signal n =
      settled + (carried + (exact (after signal n).elapsed - (f + m))) := by
    rw [drift, hbooks.measured_eq]
    ring
  rw [heq, add_one_mul]
  exact (abs_add_le _ _).trans (add_le_add hbooks.settled_le habsorbed)

/-- Three samples up and seven down: a period of ten samples that starts between
two of them. -/
def lopsided (n : ℕ) : Float32 :=
  if n % 10 < 3 then 0.3 else -0.7

theorem abs_drift_lopsided_le :
    (∀ i ≤ 25, (after lopsided i).elapsed < 4096) ∧
      (reports lopsided 25).length = 3 ∧
      |drift lopsided 25| ≤
        ((reports lopsided 25).length + 1) * 2 ^ (-11 : ℤ) := by
  have hmost : ∀ i ≤ 25, (after lopsided i).elapsed < 4096 := by decide +kernel
  exact ⟨hmost, by decide +kernel, abs_drift_le hmost⟩

end PitchFollower.PeriodMeter
