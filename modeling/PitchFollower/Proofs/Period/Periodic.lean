import Mathlib.Algebra.Ring.Periodic
import PitchFollower.Proofs.Period.Hearing

/-!
# Periodic signals

A falling crossing makes a meter forget: what it reports later depends on the
samples from the crossing on and on nothing before.  So all meters that hear the
same signal agree after its first crossing, whatever they had heard before, and
so do a meter and itself one period later if the signal is periodic.
-/

namespace PitchFollower.PeriodMeter

open Single

/-- A meter that has heard whole periods of a signal goes on as in front of
it. -/
theorem afterHearing_add_period {signal : ℕ → Float32} {T : ℕ}
    (hperiodic : Function.Periodic signal T) (m : PeriodMeter) (n : ℕ) :
    m.afterHearing signal (T + n) =
      (m.afterHearing signal T).afterHearing signal n := by
  have hshift : (fun i => signal (T + i)) = signal := by
    funext i
    rw [add_comm]
    exact hperiodic i
  rw [afterHearing_add, hshift]

/-! ## Arming -/

theorem previous_hear (m : PeriodMeter) (sample : Float32) :
    (m.hear sample).1.previous = finiteOrZero sample := by
  by_cases h : m.armed = true ∧ finiteOrZero sample < 0
  · rw [hear_of_falls h.1 h.2]
  · rw [hear_of_not_falls h]

/-- The last sample that is not zero decides whether a meter is armed. -/
theorem armed_hear (m : PeriodMeter) (sample : Float32) :
    (m.hear sample).1.armed =
      if (finiteOrZero sample == 0) = true then
        m.armed
      else decide (0 < finiteOrZero sample) := by
  have hfinite := isFinite_finiteOrZero sample
  by_cases h : m.armed = true ∧ finiteOrZero sample < 0
  · have hneg : exact (finiteOrZero sample) < 0 := (neg_iff hfinite).mp h.2
    have hzero : ¬ (finiteOrZero sample == 0) = true :=
      mt (beq_zero_iff hfinite).mp hneg.ne
    have hpos : ¬ 0 < finiteOrZero sample :=
      mt (pos_iff hfinite).mp hneg.le.not_gt
    rw [hear_of_falls h.1 h.2, if_neg hzero, decide_eq_false hpos]
    exact (fall_fst _ _).1
  · rw [hear_of_not_falls h]
    change (m.armed || decide (0 < finiteOrZero sample)) = _
    by_cases hzero : (finiteOrZero sample == 0) = true
    · have hpos : ¬ 0 < finiteOrZero sample := by
        rw [pos_iff hfinite, (beq_zero_iff hfinite).mp hzero]
        exact lt_irrefl 0
      rw [if_pos hzero, decide_eq_false hpos, Bool.or_false]
    · rw [if_neg hzero]
      cases harmed : m.armed with
      | false => rfl
      | true =>
        have hpos : 0 < finiteOrZero sample := by
          rw [pos_iff hfinite]
          have hnotneg : ¬ exact (finiteOrZero sample) < 0 :=
            fun hneg => h ⟨harmed, (neg_iff hfinite).mpr hneg⟩
          exact lt_of_le_of_ne (not_lt.mp hnotneg)
            (Ne.symm (mt (beq_zero_iff hfinite).mpr hzero))
        rw [decide_eq_true hpos, Bool.or_true]

theorem armed_afterHearing_iff {m : PeriodMeter} {signal : ℕ → Float32} {n : ℕ}
    (hloud : ∃ j < n, (silenced signal j == 0) = false) :
    (m.afterHearing signal n).armed = true ↔
      RisenBefore (silenced signal) n := by
  induction n with
  | zero =>
    obtain ⟨j, hj, -⟩ := hloud
    exact absurd hj (Nat.not_lt_zero j)
  | succ n ih =>
    rw [afterHearing, armed_hear]
    change (if (silenced signal n == 0) = true then _
      else decide (0 < silenced signal n)) = true ↔ _
    by_cases hzero : (silenced signal n == 0) = true
    · rw [risenBefore_succ_of_zero hzero, if_pos hzero]
      apply ih
      obtain ⟨j, hj, hnonzero⟩ := hloud
      rcases Nat.lt_succ_iff_lt_or_eq.mp hj with hlt | rfl
      · exact ⟨j, hlt, hnonzero⟩
      · rw [hzero] at hnonzero
        contradiction
    · rw [risenBefore_succ_of_nonzero (Bool.eq_false_iff.mpr hzero),
        if_neg hzero, decide_eq_true_eq]

/-! ## Agreement -/

/-- Two meters that know the same about the cycle that they are in. -/
structure Agree (m m' : PeriodMeter) : Prop where
  previous : m.previous = m'.previous
  armed : m.armed = m'.armed
  elapsed : m.elapsed = m'.elapsed
  gathered : m.gathered = m'.gathered

section Agreement

variable {m m' : PeriodMeter} {signal : ℕ → Float32}

theorem Agree.fall (h : Agree m m') (first : Float32) :
    Agree (m.fall first).1 (m'.fall first).1 ∧
      (m.fall first).2 = (m'.fall first).2 := by
  obtain ⟨hprevious, -, helapsed, hgathered⟩ := h
  unfold PeriodMeter.fall
  dsimp only
  rw [hprevious, helapsed, hgathered]
  split_ifs
  · exact ⟨⟨rfl, rfl, rfl, rfl⟩, rfl⟩
  · exact ⟨⟨rfl, rfl, rfl, rfl⟩, rfl⟩

theorem Agree.hear (h : Agree m m') (sample : Float32) :
    Agree (m.hear sample).1 (m'.hear sample).1 ∧
      (m.hear sample).2 = (m'.hear sample).2 := by
  have hcounted : Agree (m.counted (finiteOrZero sample))
      (m'.counted (finiteOrZero sample)) :=
    ⟨h.previous, h.armed, congrArg (· + 1) h.elapsed,
      congrArg (· + (finiteOrZero sample).abs) h.gathered⟩
  by_cases hfalls : m.armed = true ∧ finiteOrZero sample < 0
  · obtain ⟨hagree, hcycle⟩ := hcounted.fall (finiteOrZero sample)
    rw [hear_of_falls hfalls.1 hfalls.2,
      hear_of_falls (h.armed ▸ hfalls.1) hfalls.2]
    exact ⟨⟨rfl, hagree.armed, hagree.elapsed, hagree.gathered⟩, hcycle⟩
  · rw [hear_of_not_falls hfalls, hear_of_not_falls (h.armed ▸ hfalls)]
    refine ⟨⟨rfl, ?_, hcounted.elapsed, hcounted.gathered⟩, rfl⟩
    change (m.armed || _) = (m'.armed || _)
    rw [h.armed]

/-- Two meters that fall between the same two samples agree from there on. -/
theorem agree_of_falls {sample : Float32} (hprevious : m.previous = m'.previous)
    (harmed : m.armed = true) (harmed' : m'.armed = true)
    (hneg : finiteOrZero sample < 0) :
    Agree (m.hear sample).1 (m'.hear sample).1 := by
  obtain ⟨hfallen, helapsed, hgathered⟩ :=
    fall_fst (m.counted (finiteOrZero sample)) (finiteOrZero sample)
  obtain ⟨hfallen', helapsed', hgathered'⟩ :=
    fall_fst (m'.counted (finiteOrZero sample)) (finiteOrZero sample)
  rw [hear_of_falls harmed hneg, hear_of_falls harmed' hneg]
  refine ⟨rfl, ?_, ?_, ?_⟩
  · exact hfallen.trans hfallen'.symm
  · calc (PeriodMeter.fall _ _).1.elapsed
        = Crossing.fraction m.previous (finiteOrZero sample) := helapsed
      _ = Crossing.fraction m'.previous (finiteOrZero sample) := by
        rw [hprevious]
      _ = (PeriodMeter.fall _ _).1.elapsed := helapsed'.symm
  · exact hgathered.trans hgathered'.symm

/-- A crossing that no meter can miss makes all of them agree. -/
theorem agree_after_fallsAt {n : ℕ}
    (hloud : ∃ j < n, (silenced signal j == 0) = false)
    (hfalls : FallsAt (silenced signal) n) (m m' : PeriodMeter) {k : ℕ}
    (hk : n < k) :
    Agree (m.afterHearing signal k) (m'.afterHearing signal k) := by
  induction k, hk using Nat.le_induction with
  | base =>
    obtain ⟨j, hj, -⟩ := id hloud
    obtain ⟨i, rfl⟩ : ∃ i, n = i + 1 := ⟨n - 1, by omega⟩
    apply agree_of_falls
    · rw [afterHearing, afterHearing, previous_hear, previous_hear]
    · exact (armed_afterHearing_iff hloud).mpr hfalls.2
    · exact (armed_afterHearing_iff hloud).mpr hfalls.2
    · exact hfalls.1
  | succ k hk ih => exact (ih.hear (signal k)).1

theorem closes_eq_of_fallsAt {n : ℕ}
    (hloud : ∃ j < n, (silenced signal j == 0) = false)
    (hfalls : FallsAt (silenced signal) n) (m m' : PeriodMeter) {k : ℕ}
    (hk : n < k) : m.closes signal k = m'.closes signal k :=
  ((agree_after_fallsAt hloud hfalls m m' hk).hear (signal k)).2

end Agreement

/-! ## One crossing a period -/

/-- A signal of finite samples that repeats itself after `T` of them, and
crosses zero downwards once in that time.  The crossing is looked for in the
second period, because a crossing in the first one may lie between the signal
and what was before. -/
structure CrossesOnce (signal : ℕ → Float32) (T : ℕ) : Prop where
  periodic : Function.Periodic signal T
  isFinite : ∀ n, (signal n).isFinite = true
  once : ∃! r, r < T ∧ FallsAt signal (T + r)

section Periods

variable {signal : ℕ → Float32} {T : ℕ}

theorem silenced_eq_self (h : ∀ n, (signal n).isFinite = true) :
    silenced signal = signal := by
  funext n
  exact if_pos (h n)

theorem CrossesOnce.silenced_eq (h : CrossesOnce signal T) :
    silenced signal = signal :=
  silenced_eq_self h.isFinite

/-- The sample behind the crossing is not zero, in the first period as in
any. -/
theorem CrossesOnce.loud (h : CrossesOnce signal T) {n : ℕ} (hn : T ≤ n) :
    ∃ j < n, (silenced signal j == 0) = false := by
  obtain ⟨r, ⟨hr, hfalls⟩, -⟩ := h.once
  refine ⟨r, hr.trans_le hn, ?_⟩
  have hneg : signal r < 0 := by
    rw [← h.periodic r, add_comm]
    exact hfalls.1
  rw [h.silenced_eq, beq_zero_eq_false_iff (h.isFinite r)]
  exact ((neg_iff (h.isFinite r)).mp hneg).ne

/-- The crossings recur, because what a meter takes for risen does not depend on
where it began to hear. -/
theorem CrossesOnce.fallsAt_add_iff (h : CrossesOnce signal T) {n : ℕ}
    (hn : T ≤ n) : FallsAt signal (T + n) ↔ FallsAt signal n := by
  have hrisen : RisenBefore signal (T + n) ↔ RisenBefore signal n := by
    rw [← h.silenced_eq,
      ← armed_afterHearing_iff (m := start) (h.loud (by omega)),
      afterHearing_add_period h.periodic, armed_afterHearing_iff (h.loud hn)]
  rw [FallsAt, FallsAt, hrisen, add_comm, h.periodic n]

theorem CrossesOnce.fallsAt_iff (h : CrossesOnce signal T) {r : ℕ}
    (hr : r < T ∧ FallsAt signal (T + r)) (q : ℕ) {i : ℕ} (hi : i < T) :
    FallsAt signal ((q + 1) * T + i) ↔ i = r := by
  induction q with
  | zero =>
    rw [zero_add, one_mul]
    constructor
    · intro hfalls
      exact h.once.unique ⟨hi, hfalls⟩ hr
    · rintro rfl
      exact hr.2
  | succ q ih =>
    have hnext : (q + 1 + 1) * T + i = T + ((q + 1) * T + i) := by ring
    have hle : T ≤ (q + 1) * T + i := by
      rw [add_one_mul]
      omega
    rw [hnext, h.fallsAt_add_iff hle, ih]

/-- Every meter reports the same cycle over and over again, from the third
period of the signal on. -/
theorem CrossesOnce.exists_closes_eq (h : CrossesOnce signal T)
    (m : PeriodMeter) :
    ∃ c : Cycle, ∀ n, 2 * T ≤ n →
      (FallsAt signal n → m.closes signal n = some c) ∧
      (¬ FallsAt signal n → m.closes signal n = none) := by
  obtain ⟨r, hr, -⟩ := h.once
  have hr' := h.silenced_eq ▸ hr.2
  have hsame : ∀ m' : PeriodMeter, ∀ k, T + r < k →
      m'.closes signal k = reported signal k := by
    intro m' k hk
    rw [← closes_start]
    exact closes_eq_of_fallsAt (h.loud (Nat.le_add_right T r)) hr' m' start hk
  have hperiod : ∀ k, T + r < k →
      reported signal (T + k) = reported signal k := by
    intro k hk
    rw [← closes_start, closes, afterHearing_add_period h.periodic, add_comm,
      h.periodic k]
    exact hsame _ k hk
  have hfalls : FallsAt (silenced signal) (2 * T + r) := by
    rw [h.silenced_eq]
    exact (h.fallsAt_iff hr 1 hr.1).mpr rfl
  obtain ⟨c, hc, -⟩ := reported_of_fallsAt hfalls (by omega)
  have hreported : ∀ q, reported signal ((q + 2) * T + r) = some c := by
    intro q
    induction q with
    | zero => exact (congrArg (reported signal) (by ring)).trans hc
    | succ q ih =>
      have hnext : (q + 1 + 2) * T + r = T + ((q + 2) * T + r) := by ring
      rw [hnext, hperiod _ (by nlinarith [hr.1]), ih]
  refine ⟨c, fun n hn => ?_⟩
  rw [hsame m n (by omega)]
  constructor
  · intro hn'
    have hT : 0 < T := by omega
    obtain ⟨q, hq⟩ : ∃ q, n / T = q + 2 :=
      ⟨n / T - 2, by have := (Nat.le_div_iff_mul_le hT).mpr hn; omega⟩
    have hdiv : (q + 2) * T + n % T = n := by
      rw [← hq, mul_comm]
      exact Nat.div_add_mod n T
    rw [← hdiv] at hn' ⊢
    rw [(h.fallsAt_iff hr (q + 1) (Nat.mod_lt n hT)).mp hn']
    exact hreported q
  · intro hn'
    exact reported_of_not_fallsAt (by rwa [h.silenced_eq])

end Periods

end PitchFollower.PeriodMeter
