import PitchFollower.Proofs.Period.Energies
import PitchFollower.Proofs.Single.Midpoints

/-!
# Peaks and energies

A cycle of `m` samples can be as short as `m - 1` of them, because its crossings
lie between samples.  So its energy, the mean of the magnitudes over the period,
can exceed the largest magnitude, but not by more than a factor of two.
Rounding makes no difference to that: a sum of magnitudes grows by twice the
last one at most, and its first two are added without an error that counts.
-/

namespace PitchFollower

open Single

/-! ## Sums -/

section Sums

variable {a b : ℚ} {x y : Float32}

/-- Adding a number moves a sum by no more than twice that number, since the sum
itself would have been nearer. -/
theorem Single.Within.add_le (hx : Within a x) (hy : Within b y)
    (hmost : a + 2 * b < 2 ^ 128) : Within (a + 2 * b) (x + y) := by
  have hup :=
    (onGrid_abs_exact x).nearest_sub_le (y := |exact x| + |exact y|)
      (by positivity)
    (le_add_of_nonneg_right (abs_nonneg _))
  have hle : nearest (|exact x| + |exact y|) ≤ a + 2 * b := by
    linarith [hx.abs_le, hy.abs_le]
  exact ((add_roundsTo hx.isFinite hy.isFinite).within_nearest (abs_add_le _ _)
    (hle.trans_lt hmost)).mono hle

end Sums

namespace PeriodMeter

section Peaks

variable {s : ℕ → Float32} {p : ℚ} {b n : ℕ}

/-- The largest magnitude among some samples is a bound on the grid. -/
theorem exists_peak {most : ℚ} (hmost : 0 ≤ most)
    (h : ∀ i < n, Within most (s i)) :
    ∃ p, OnGrid p ∧ p ≤ most ∧ ∀ i < n, Within p (s i) := by
  induction n with
  | zero =>
    exact ⟨exact 0, onGrid_exact 0, exact_zero.trans_le hmost,
      fun i hi => absurd hi (Nat.not_lt_zero i)⟩
  | succ n ih =>
    obtain ⟨p, hp, hle, hwithin⟩ :=
      ih fun i hi => h i (hi.trans (Nat.lt_succ_self n))
    have hlast := h n (Nat.lt_succ_self n)
    refine ⟨max p |exact (s n)|, ?_, max_le hle hlast.abs_le, fun i hi => ?_⟩
    · rcases max_choice p |exact (s n)| with heq | heq <;> rw [heq]
      · exact hp
      · exact onGrid_abs_exact (s n)
    · rcases Nat.lt_succ_iff_lt_or_eq.mp hi with hlt | rfl
      · exact (hwithin i hlt).mono (le_max_left _ _)
      · exact ⟨hlast.isFinite, le_max_right _ _⟩

theorem within_magnitudeSum_of_peak (hp : OnGrid p) (h : b + 2 ≤ n)
    (hs : ∀ i < n, Within p (s i))
    (hmost : ((n - b - 1 : ℕ) : ℚ) * (2 * p) < 2 ^ 128) :
    Within (((n - b - 1 : ℕ) : ℚ) * (2 * p)) (magnitudeSum s b n) := by
  induction n, h using Nat.le_induction with
  | base =>
    have hfirst := (hs b (by omega)).abs
    have hsecond := (hs (b + 1) (by omega)).abs
    have hone : b + 2 - b - 1 = 1 := by omega
    rw [hone, Nat.cast_one, one_mul] at hmost ⊢
    rw [magnitudeSum_succ s (Nat.le_succ b), magnitudeSum_succ s le_rfl,
      magnitudeSum_self]
    have hnonneg := hfirst.nonneg
    exact (within_zero.add hfirst hp (by linarith) (zero_add p).le).add hsecond
      hp.two_mul hmost
      (two_mul p).ge
  | succ n h ih =>
    have hcount : n + 1 - b - 1 = (n - b - 1) + 1 := by omega
    have hlast := (hs n (Nat.lt_succ_self n)).abs
    rw [hcount, Nat.cast_succ, add_one_mul] at hmost ⊢
    rw [magnitudeSum_succ s (by omega)]
    have hnonneg := hlast.nonneg
    exact (ih (fun i hi => hs i (hi.trans (Nat.lt_succ_self n)))
      (by linarith)).add_le hlast hmost

end Peaks

section Energies

variable {signal : ℕ → Float32} {n : ℕ} {c : Cycle} {most : ℚ}

/-- A bound on the finite samples of a signal is one on what a meter takes it
for. -/
theorem within_silenced (hmost : 0 ≤ most)
    (h : (signal n).isFinite = true → |exact (signal n)| ≤ most) :
    Within most (silenced signal n) := by
  unfold silenced finiteOrZero
  split_ifs with hfinite
  · exact ⟨hfinite, h hfinite⟩
  · exact within_zero.mono hmost

/-- The energy of a cycle is at most twice the largest magnitude. -/
theorem within_energy_of_few (hn : n + 1 < 2 ^ 24)
    (hmost : 2 ^ 25 * most < 2 ^ 128)
    (hsignal : ∀ i < n + 1, Within most (silenced signal i))
    (hc : reported signal n = some c) : Within (2 * most) c.energy := by
  obtain ⟨p, hp, hle, hpeak⟩ :=
    exists_peak (hsignal 0 (Nat.succ_pos n)).nonneg hsignal
  obtain ⟨hfalls, hn'⟩ := fallsAt_of_reported hc
  obtain ⟨-, -, b, hb, henergy⟩ := cycle_of_reported hc
  obtain ⟨hfinite, hone⟩ := period_bounds hc
  have htwo := hb.two_le (isFinite_silenced signal) hfalls hn'
  have hcount := count_le_period hc hb
  rw [min_eq_left (by omega)] at hcount
  have hnonneg := (hpeak 0 (Nat.succ_pos n)).nonneg
  have hless : ((n + 1 - b - 1 : ℕ) : ℚ) * (2 * p) < 2 ^ 128 := by
    have hfew : ((n + 1 - b - 1 : ℕ) : ℚ) ≤ 2 ^ 24 := by
      have : n + 1 - b - 1 ≤ 2 ^ 24 := by omega
      exact_mod_cast this
    calc ((n + 1 - b - 1 : ℕ) : ℚ) * (2 * p) ≤ 2 ^ 24 * (2 * most) := by gcongr
      _ = 2 ^ 25 * most := by ring
      _ < 2 ^ 128 := hmost
  have hsum := within_magnitudeSum_of_peak hp (by omega) hpeak hless
  rw [henergy]
  refine (hsum.div hfinite (zero_lt_one.trans_le hone) hp.two_mul
    (by linarith) ?_).mono (by linarith)
  rw [Nat.cast_sub (by omega), Nat.cast_one, mul_comm]
  exact mul_le_mul_of_nonneg_left hcount (by positivity)

/-- A meter never holds an energy larger than twice the largest magnitude. -/
theorem within_energy_after (hn : n < 2 ^ 24) (hnonneg : 0 ≤ most)
    (hmost : 2 ^ 25 * most < 2 ^ 128)
    (hsignal : ∀ i < n, Within most (silenced signal i)) :
    Within (2 * most) (after signal n).energy := by
  apply holds_of_last_report (P := fun _ energy => Within (2 * most) energy)
  · exact within_zero.mono (by positivity)
  · intro c hc
    obtain ⟨i, hi, hc⟩ := mem_reports_iff.mp hc
    exact within_energy_of_few (by omega) hmost (fun j hj =>
      hsignal j (by omega)) hc

end Energies

end PeriodMeter

end PitchFollower
