import PitchFollower.Proofs.Period.Periodic
import PitchFollower.Proofs.Period.Reports

/-!
# Recurrence

A periodic signal with one crossing a period brings a meter back to where it
was.  From the fourth period on only the counts of cycles tell a sample from the
one a period later, and they grow by one in each period.  The counters come
round after 8, 12 and 16 cycles, so that after 48 cycles all three have done so.
-/

namespace PitchFollower

namespace PhaseCounters

theorem toList_injective : Function.Injective toList := by
  rintro ⟨eighth, twelfth, sixteenth⟩ ⟨eighth', twelfth', sixteenth'⟩ h
  simpa [toList, Fin.ext_iff] using h

/-- The counters do not see 48 more cycles. -/
theorem map_moduli_add (n : ℕ) :
    moduli.map ((n + 48) % ·) = moduli.map (n % ·) := by
  have hdvd : ∀ modulus ∈ moduli, modulus ∣ 48 := by decide
  apply List.map_congr_left
  intro modulus hmodulus
  obtain ⟨k, hk⟩ := hdvd modulus hmodulus
  rw [hk, Nat.add_mul_mod_self_left]

end PhaseCounters

namespace PeriodMeter

attribute [ext] PeriodMeter

section Periods

variable {signal : ℕ → Float32} {T k : ℕ}

theorem CrossesOnce.isSome_reported_iff (h : CrossesOnce signal T)
    (hk : T ≤ k) : (reported signal k).isSome = true ↔ FallsAt signal k := by
  obtain ⟨r, ⟨hr, -⟩, -⟩ := h.once
  rw [PeriodMeter.isSome_reported_iff, h.silenced_eq, and_iff_left (by omega)]

/-- There is one more cycle in every period. -/
theorem CrossesOnce.cycleCount_add_period (h : CrossesOnce signal T)
    (hk : 2 * T ≤ k) :
    (after signal (k + T)).cycleCount = (after signal k).cycleCount + 1 := by
  obtain ⟨r, hr, -⟩ := h.once
  rw [(counts_after signal _).1, (counts_after signal _).1]
  induction k, hk using Nat.le_induction with
  | base =>
    have hone : ∀ i ∈ Finset.range T, (reported signal (2 * T + i)).isSome =
        true ↔ i = r := by
      intro i hi
      rw [h.isSome_reported_iff (by omega)]
      exact h.fallsAt_iff hr 1 (Finset.mem_range.mp hi)
    have hcount :
        Nat.count (fun i => (reported signal (2 * T + i)).isSome) T = 1 := by
      rw [Nat.count_eq_card_filter_range, Finset.filter_congr hone,
        Finset.filter_eq', if_pos (Finset.mem_range.mpr hr.1),
        Finset.card_singleton]
    rw [Nat.count_add, hcount]
  | succ k hk ih =>
    have hsame : (reported signal (k + T)).isSome = true ↔
        (reported signal k).isSome = true := by
      rw [h.isSome_reported_iff (by omega), h.isSome_reported_iff (by omega),
        add_comm, h.fallsAt_add_iff (by omega)]
    rw [Nat.add_right_comm, Nat.count_succ, Nat.count_succ, ih,
      if_congr hsame rfl rfl, Nat.add_right_comm]

theorem CrossesOnce.cycleCount_add_periods (h : CrossesOnce signal T)
    (hk : 2 * T ≤ k) (N : ℕ) :
    (after signal (k + N * T)).cycleCount =
      (after signal k).cycleCount + N := by
  induction N with
  | zero => rw [zero_mul, add_zero, add_zero]
  | succ N ih => rw [add_one_mul, ← add_assoc,
    h.cycleCount_add_period (by omega), ih, add_assoc]

/-- What a meter knows about the cycle that it is in comes back with the
signal. -/
theorem CrossesOnce.agree_add_periods (h : CrossesOnce signal T)
    (hk : 2 * T ≤ k) (N : ℕ) :
    Agree (after signal (k + N * T)) (after signal k) := by
  obtain ⟨r, ⟨hr, hfalls⟩, -⟩ := h.once
  have hperiodic : Function.Periodic signal (N * T) := h.periodic.nat_mul N
  rw [add_comm, ← afterHearing_start, ← afterHearing_start,
    afterHearing_add_period hperiodic]
  rw [← h.silenced_eq] at hfalls
  exact agree_after_fallsAt (h.loud (Nat.le_add_right T r)) hfalls _ _
    (by omega)

/-- The period and the energy that a meter holds stay the same once a cycle has
been closed between two crossings. -/
theorem CrossesOnce.exists_held (h : CrossesOnce signal T) :
    ∃ c : Cycle, ∀ k, 3 * T ≤ k → (after signal k).period = c.period ∧
      (after signal k).energy = c.energy := by
  obtain ⟨c, hc⟩ := h.exists_closes_eq start
  obtain ⟨r, hr, -⟩ := h.once
  simp only [closes_start] at hc
  have hsame : ∀ k, 2 * T ≤ k → ∀ c' ∈ reported signal k, c' = c := by
    intro k hk c' hc'
    obtain ⟨hfalls, -⟩ := fallsAt_of_reported hc'
    rw [h.silenced_eq] at hfalls
    exact Option.some_inj.mp (hc'.symm.trans ((hc k hk).1 hfalls))
  have hheld : ∀ k, 2 * T + r < k →
      (after signal k).period = c.period ∧
      (after signal k).energy = c.energy := by
    intro k hk
    induction k, hk using Nat.le_induction with
    | base =>
      exact held_of_reported
        ((hc _ (by omega)).1 ((h.fallsAt_iff hr 1 hr.1).mpr rfl))
    | succ k hk ih =>
      cases hcycle : reported signal k with
      | none =>
        obtain ⟨hperiod, henergy⟩ := held_of_not_reported hcycle
        rwa [hperiod, henergy]
      | some c' =>
        obtain rfl := hsame k (by omega) c' hcycle
        exact held_of_reported hcycle
  exact ⟨c, fun k hk => hheld k (by have := hr.1; omega)⟩

/-- From the fourth period on a meter is in the same state again after 48
periods, but for the number of cycles. -/
theorem CrossesOnce.after_add_48_periods (h : CrossesOnce signal T)
    (hk : 3 * T ≤ k) :
    after signal (k + 48 * T) =
      { after signal k with
        cycleCount := (after signal k).cycleCount + 48 } := by
  obtain ⟨hprevious, harmed, helapsed, hgathered⟩ :=
    h.agree_add_periods (k := k) (by omega) 48
  obtain ⟨c, hheld⟩ := h.exists_held
  obtain ⟨hperiod, henergy⟩ := hheld k hk
  obtain ⟨hperiod', henergy'⟩ := hheld (k + 48 * T) (by omega)
  have hcount := h.cycleCount_add_periods (k := k) (by omega) 48
  have hcounters : (after signal (k + 48 * T)).counters =
      (after signal k).counters := by
    apply PhaseCounters.toList_injective
    rw [(counts_after signal _).2, (counts_after signal _).2, hcount,
      PhaseCounters.map_moduli_add]
  exact PeriodMeter.ext hprevious harmed helapsed (hperiod'.trans hperiod.symm)
    hgathered
    (henergy'.trans henergy.symm) hcounters hcount

end Periods

end PeriodMeter

end PitchFollower
