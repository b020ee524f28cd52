import PitchFollower.Proofs.Period.Cycles

/-!
# Reports

The cycles that a meter has reported so far, and what a report consists of.  A
period is the count of samples up to the crossing, an energy is the sum of
magnitudes over it, and the meter remembers both until the next report.
-/

namespace PitchFollower.PeriodMeter

open Single

/-- The cycles reported on the first `n` samples of a signal. -/
def reports (signal : ℕ → Float32) (n : ℕ) : List Cycle :=
  (List.range n).filterMap (reported signal)

theorem reports_succ (signal : ℕ → Float32) (n : ℕ) :
    reports signal (n + 1) =
      reports signal n ++ (reported signal n).toList := by
  rw [reports, List.range_succ, List.filterMap_append, reports]
  cases h : reported signal n <;> simp [h]

theorem reports_succ_of_none {signal : ℕ → Float32} {n : ℕ}
    (h : reported signal n = none) :
    reports signal (n + 1) = reports signal n := by
  rw [reports_succ, h, Option.toList_none, List.append_nil]

theorem mem_reports_iff {signal : ℕ → Float32} {n : ℕ} {c : Cycle} :
    c ∈ reports signal n ↔ ∃ i < n, reported signal i = some c := by
  simp [reports]

theorem hear_remembers (m : PeriodMeter) (sample : Float32) :
    (∃ c, (m.hear sample).2 = some c ∧ (m.hear sample).1.period = c.period ∧
        (m.hear sample).1.energy = c.energy) ∨
      ((m.hear sample).2 = none ∧ (m.hear sample).1.period = m.period ∧
        (m.hear sample).1.energy = m.energy) := by
  by_cases h : m.armed = true ∧ finiteOrZero sample < 0
  · rw [hear_of_falls h.1 h.2]
    simp only [fall]
    split_ifs
    · exact .inl ⟨_, rfl, rfl, rfl⟩
    · exact .inr ⟨rfl, rfl, rfl⟩
  · rw [hear_of_not_falls h]
    exact .inr ⟨rfl, rfl, rfl⟩

theorem held_of_reported {signal : ℕ → Float32} {n : ℕ} {c : Cycle}
    (hc : reported signal n = some c) :
    (after signal (n + 1)).period = c.period ∧
      (after signal (n + 1)).energy = c.energy := by
  rw [after]
  rcases hear_remembers (after signal n) (signal n) with
    ⟨c', hc', hperiod, henergy⟩ | ⟨hnone, -, -⟩
  · obtain rfl := Option.some_inj.mp (hc'.symm.trans hc)
    exact ⟨hperiod, henergy⟩
  · cases hnone.symm.trans hc

theorem held_of_not_reported {signal : ℕ → Float32} {n : ℕ}
    (hnone : reported signal n = none) :
    (after signal (n + 1)).period = (after signal n).period ∧
      (after signal (n + 1)).energy = (after signal n).energy := by
  rw [after]
  rcases hear_remembers (after signal n) (signal n) with
    ⟨c, hc, -, -⟩ | ⟨-, hperiod, henergy⟩
  · cases hnone.symm.trans hc
  · exact ⟨hperiod, henergy⟩

/-- The meter holds the period and the energy of the last report. -/
theorem last_report (signal : ℕ → Float32) (n : ℕ) :
    ((after signal n).period, (after signal n).energy) =
      ((reports signal n).getLast?.map fun c =>
        (c.period, c.energy)).getD (initialPeriod, 0) := by
  induction n with
  | zero => rfl
  | succ n ih =>
    rw [reports_succ]
    cases hcycle : reported signal n with
    | none =>
      obtain ⟨hperiod, henergy⟩ := held_of_not_reported hcycle
      rw [hperiod, henergy, ih]
      simp
    | some c =>
      obtain ⟨hperiod, henergy⟩ := held_of_reported hcycle
      rw [hperiod, henergy]
      simp

theorem holds_of_last_report {signal : ℕ → Float32} {n : ℕ}
    {P : Float32 → Float32 → Prop} (hstart : P initialPeriod 0)
    (hreports : ∀ c ∈ reports signal n, P c.period c.energy) :
    P (after signal n).period (after signal n).energy := by
  have hlast := last_report signal n
  cases h : (reports signal n).getLast? with
  | none =>
    rw [h, Option.map_none, Option.getD_none, Prod.mk.injEq] at hlast
    rw [hlast.1, hlast.2]
    exact hstart
  | some c =>
    rw [h, Option.map_some, Option.getD_some, Prod.mk.injEq] at hlast
    rw [hlast.1, hlast.2]
    exact hreports c (List.mem_of_getLast? h)

section Step

variable {signal : ℕ → Float32} {n : ℕ}

theorem elapsed_of_not_fallsAt (hfalls : ¬ FallsAt (silenced signal) n) :
    (after signal (n + 1)).elapsed = (after signal n).elapsed + 1 := by
  rw [after,
    hear_of_not_falls (mt (tracks_after signal n).armed_and_neg_iff.mp hfalls)]
  rfl

theorem elapsed_of_fallsAt (hfalls : FallsAt (silenced signal) n) :
    (after signal (n + 1)).elapsed =
      Crossing.fraction (after signal n).previous (silenced signal n) := by
  obtain ⟨harmed, hneg⟩ := (tracks_after signal n).armed_and_neg_iff.mpr hfalls
  rw [after, hear_of_falls harmed hneg]
  exact (fall_fst _ _).2.1

/-- A reported period is the count with the closing sample, up to the
crossing. -/
theorem period_of_reported {c : Cycle} (hc : reported signal n = some c) :
    c.period = (after signal n).elapsed + 1 -
      Crossing.fraction (after signal n).previous (silenced signal n) := by
  obtain ⟨hfalls, -⟩ := fallsAt_of_reported hc
  obtain ⟨harmed, hneg⟩ := (tracks_after signal n).armed_and_neg_iff.mpr hfalls
  rw [reported, hear_reports harmed hneg rfl] at hc
  split_ifs at hc
  rw [← Option.some_inj.mp hc]
  rfl

/-- A period lasts at least one sample, and so does everything that the meter
says about it. -/
theorem period_bounds {c : Cycle} (hc : reported signal n = some c) :
    c.period.isFinite = true ∧ 1 ≤ exact c.period := by
  obtain ⟨hfinite, hone, -⟩ := cycle_of_reported hc
  rw [le_iff rfl hfinite, exact_one] at hone
  exact ⟨hfinite, hone⟩

end Step

end PitchFollower.PeriodMeter
