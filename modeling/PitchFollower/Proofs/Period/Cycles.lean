import Mathlib.Data.Nat.Count
import PitchFollower.Period.Detector
import PitchFollower.Proofs.Period.Timing

/-!
# The cycles of a signal

A meter sees one sample at a time.  This module defines the falling crossings of
a whole signal, and the cycles between them, by looking back over all of its
samples, and shows that the meter reports exactly those cycles.  The state after
every prefix is described by one invariant, `PeriodMeter.Tracks`.
-/

namespace PitchFollower

open Single

/-! ## Crossings and cycles seen from the whole signal -/

/-- A signal as the meter takes it, silent where it is not finite. -/
def silenced (signal : ℕ → Float32) (n : ℕ) : Float32 :=
  finiteOrZero (signal n)

/-- The last sample before the `n`-th that is not zero is positive, if there is
such a sample. -/
def RisenBefore (s : ℕ → Float32) (n : ℕ) : Prop :=
  ∀ j < n, (s j == 0) = false →
    (∀ k, j < k → k < n → (s k == 0) = true) → 0 < s j

/-- The `n`-th sample is the first one behind a falling crossing. -/
def FallsAt (s : ℕ → Float32) (n : ℕ) : Prop :=
  s n < 0 ∧ RisenBefore s n

/-- The cycle of the `n`-th sample begins with the `b`-th: directly behind the
last falling crossing before the `n`-th sample, or with the signal. -/
structure CycleBegins (s : ℕ → Float32) (b n : ℕ) : Prop where
  le : b ≤ n
  behind : b = 0 ∨ ∃ j, b = j + 1 ∧ FallsAt s j
  unbroken : ∀ k, b ≤ k → k < n → ¬ FallsAt s k

theorem CycleBegins.succ {s : ℕ → Float32} {b n : ℕ} (h : CycleBegins s b n)
    (hfalls : ¬ FallsAt s n) : CycleBegins s b (n + 1) := by
  refine ⟨h.le.trans (Nat.le_succ n), h.behind, fun k hbk hk => ?_⟩
  rcases Nat.lt_succ_iff_lt_or_eq.mp hk with hlt | rfl
  · exact h.unbroken k hbk hlt
  · exact hfalls

/-- The magnitudes of the samples from the `b`-th to the one before the `n`-th,
added from the left. -/
def magnitudeSum (s : ℕ → Float32) (b n : ℕ) : Float32 :=
  ((List.range' b (n - b)).map fun i => (s i).abs).foldl (· + ·) 0

theorem magnitudeSum_self (s : ℕ → Float32) (n : ℕ) :
    magnitudeSum s n n = 0 := by
  simp [magnitudeSum]

theorem magnitudeSum_succ
    (s : ℕ → Float32) {b n : ℕ} (h : b ≤ n) :
    magnitudeSum s b (n + 1) = magnitudeSum s b n + (s n).abs := by
  have hlength : n + 1 - b = n - b + 1 := by omega
  have hlast : b + (n - b) = n := by omega
  rw [magnitudeSum, hlength, List.range'_1_concat, List.map_append,
    List.foldl_append, hlast]
  rfl

section Signs

variable {s : ℕ → Float32} {n : ℕ}

theorem risenBefore_zero (s : ℕ → Float32) : RisenBefore s 0 :=
  fun j hj => absurd hj (Nat.not_lt_zero j)

theorem risenBefore_succ_of_zero (h : (s n == 0) = true) :
    RisenBefore s (n + 1) ↔ RisenBefore s n := by
  constructor
  · intro hrisen j hj hnonzero hlast
    refine hrisen j (by omega) hnonzero fun k hjk hk => ?_
    rcases Nat.lt_succ_iff_lt_or_eq.mp hk with hlt | rfl
    · exact hlast k hjk hlt
    · exact h
  · intro hrisen j hj hnonzero hlast
    rcases Nat.lt_succ_iff_lt_or_eq.mp hj with hlt | rfl
    · exact hrisen j hlt hnonzero fun k hjk hk => hlast k hjk (by omega)
    · rw [h] at hnonzero
      contradiction

theorem risenBefore_succ_of_nonzero (h : (s n == 0) = false) :
    RisenBefore s (n + 1) ↔ 0 < s n := by
  constructor
  · intro hrisen
    exact hrisen n (by omega) h fun k hnk hk => by omega
  · intro hpos j hj hnonzero hlast
    rcases Nat.lt_succ_iff_lt_or_eq.mp hj with hlt | rfl
    · rw [hlast n hlt (by omega)] at h
      contradiction
    · exact hpos

/-- A signal that has just fallen has not risen again. -/
theorem not_risenBefore_of_fallsAt (hs : (s n).isFinite = true)
    (h : FallsAt s n) : ¬ RisenBefore s (n + 1) := by
  have hneg : exact (s n) < 0 := (neg_iff hs).mp h.1
  rw [risenBefore_succ_of_nonzero ((beq_zero_eq_false_iff hs).mpr hneg.ne),
    pos_iff hs]
  exact hneg.le.not_gt

/-- A signal that has risen has last had a sample that is not negative. -/
theorem nonneg_of_risenBefore_succ (hs : (s n).isFinite = true)
    (h : RisenBefore s (n + 1)) : 0 ≤ exact (s n) := by
  by_cases hzero : exact (s n) = 0
  · exact hzero.ge
  · rw [risenBefore_succ_of_nonzero ((beq_zero_eq_false_iff hs).mpr hzero),
      pos_iff hs] at h
    exact h.le

/-- Between two falling crossings the signal rises on a positive sample. -/
theorem risenBefore_succ_iff (hs : (s n).isFinite = true) (h : ¬ FallsAt s n) :
    RisenBefore s (n + 1) ↔ RisenBefore s n ∨ 0 < s n := by
  rw [pos_iff hs]
  rcases lt_trichotomy (exact (s n)) 0 with hneg | hzero | hpos
  · have hrisen : ¬ RisenBefore s n :=
      fun hrisen => h ⟨(neg_iff hs).mpr hneg, hrisen⟩
    rw [risenBefore_succ_of_nonzero ((beq_zero_eq_false_iff hs).mpr hneg.ne),
      pos_iff hs, or_iff_right hrisen]
  · rw [risenBefore_succ_of_zero ((beq_zero_iff hs).mpr hzero), hzero,
      or_iff_left (lt_irrefl 0)]
  · rw [risenBefore_succ_of_nonzero ((beq_zero_eq_false_iff hs).mpr hpos.ne'),
      pos_iff hs]
    exact ⟨.inr, fun _ => hpos⟩

/-- A falling crossing does not lie directly behind another one. -/
theorem CycleBegins.two_le
    {b : ℕ} (hs : ∀ k, (s k).isFinite = true) (hb : CycleBegins s b n)
    (hfalls : FallsAt s n) (hn : 1 ≤ n) :
    2 ≤ n + 1 - b := by
  have hle := hb.le
  rcases hb.behind with rfl | ⟨j, rfl, hj⟩
  · omega
  · have hne : j + 1 ≠ n := by
      rintro rfl
      exact not_risenBefore_of_fallsAt (hs j) hj hfalls.2
    omega

end Signs

/-! ## Counters and detectors -/

theorem PhaseCounters.toList_next {c : PhaseCounters} {n : ℕ}
    (h : c.toList = PhaseCounters.moduli.map (n % ·)) :
    c.next.toList = PhaseCounters.moduli.map ((n + 1) % ·) := by
  simp only [PhaseCounters.toList, PhaseCounters.moduli, List.map_cons,
    List.map_nil, List.cons.injEq, and_true] at h
  obtain ⟨h8, h12, h16⟩ := h
  simp only [PhaseCounters.toList, PhaseCounters.next, PhaseCounters.moduli,
    List.map_cons, List.map_nil, h8, h12, h16, Nat.mod_add_mod]

theorem Detector.hearAll_push {π ω : Type} [Player π ω] (d : Detector π)
    (samples : Array Float32) (sample : Float32) :
    d.hearAll (samples.push sample) =
      (((d.hearAll samples).1.hear sample).1,
        (d.hearAll samples).2.push ((d.hearAll samples).1.hear sample).2) := by
  simp only [Detector.hearAll, Array.foldl_push]

namespace PeriodMeter

/-- The meter after the first `n` samples of a signal. -/
def after (signal : ℕ → Float32) : ℕ → PeriodMeter
  | 0 => start
  | n + 1 => ((after signal n).hear (signal n)).1

/-- The cycle that is reported on the `n`-th sample. -/
def reported (signal : ℕ → Float32) (n : ℕ) : Option Cycle :=
  ((after signal n).hear (signal n)).2

/-! ## One sample -/

/-- The sample counted, before it is looked at for a crossing. -/
def counted (m : PeriodMeter) (x : Float32) : PeriodMeter :=
  { m with gathered := m.gathered + x.abs, elapsed := m.elapsed + 1 }

theorem hear_of_falls
    {m : PeriodMeter} {sample : Float32} (harmed : m.armed = true)
    (hneg : finiteOrZero sample < 0) :
    m.hear sample =
      ({ ((m.counted (finiteOrZero sample)).fall (finiteOrZero sample)).1 with
          previous := finiteOrZero sample },
        ((m.counted (finiteOrZero sample)).fall (finiteOrZero sample)).2) := by
  simp only [hear, harmed, hneg, if_true, counted]

theorem hear_of_not_falls
    {m : PeriodMeter} {sample : Float32}
    (h : ¬ (m.armed = true ∧ finiteOrZero sample < 0)) :
    m.hear sample =
      ({ m.counted (finiteOrZero sample) with
          armed := m.armed || decide (0 < finiteOrZero sample)
          previous := finiteOrZero sample }, none) := by
  unfold hear
  cases harmed : m.armed with
  | true =>
    have hneg : ¬ finiteOrZero sample < 0 := fun hneg => h ⟨harmed, hneg⟩
    simp [hneg, harmed, counted]
  | false => simp [counted]

/-- The part of the meter that a fall sets, whether or not it closes a cycle. -/
theorem fall_fst (m : PeriodMeter) (first : Float32) :
    (m.fall first).1.armed = false ∧
      (m.fall first).1.elapsed = Crossing.fraction m.previous first ∧
      (m.fall first).1.gathered = 0 := by
  simp only [fall]
  split_ifs <;> exact ⟨rfl, rfl, rfl⟩

theorem fall_snd {m : PeriodMeter} {first period : Float32}
    (hperiod : m.elapsed - Crossing.fraction m.previous first = period) :
    (m.fall first).2 = if 0 < period then some ⟨period,
      m.gathered / period⟩ else none := by
  subst hperiod
  unfold fall
  dsimp only
  split_ifs <;> rfl

theorem hear_reports {m : PeriodMeter} {sample period : Float32}
    (harmed : m.armed = true) (hneg : finiteOrZero sample < 0)
    (hperiod : m.elapsed + 1 -
      Crossing.fraction m.previous (finiteOrZero sample) = period) :
    (m.hear sample).2 =
      if 0 < period then some ⟨period,
        (m.gathered + (finiteOrZero sample).abs) / period⟩
      else none := by
  rw [hear_of_falls harmed hneg]
  exact fall_snd hperiod

/-- The counts of cycles change with a report, and only then. -/
theorem hear_counts (m : PeriodMeter) (sample : Float32) :
    ((m.hear sample).2.isSome = true ∧
      (m.hear sample).1.cycleCount = m.cycleCount + 1 ∧
        (m.hear sample).1.counters = m.counters.next) ∨
      ((m.hear sample).2.isSome = false ∧
        (m.hear sample).1.cycleCount = m.cycleCount ∧
        (m.hear sample).1.counters = m.counters) := by
  by_cases h : m.armed = true ∧ finiteOrZero sample < 0
  · rw [hear_of_falls h.1 h.2]
    simp only [fall]
    split_ifs
    · exact .inl ⟨rfl, rfl, rfl⟩
    · exact .inr ⟨rfl, rfl, rfl⟩
  · rw [hear_of_not_falls h]
    exact .inr ⟨rfl, rfl, rfl⟩

/-! ## The invariant -/

/-- What the meter knows of the first `n` samples of a signal.  The count of
elapsed samples is rounded and stops growing in the end, but it tells apart no
sample, one sample and more. -/
structure Tracks (s : ℕ → Float32) (n : ℕ) (m : PeriodMeter) : Prop where
  silentBefore : n = 0 → m.previous = 0
  previous : ∀ k, n = k + 1 → m.previous = s k
  armed : m.armed = true ↔ RisenBefore s n
  isCount : IsCount m.elapsed
  begins : ∃ b, CycleBegins s b n ∧ m.gathered = magnitudeSum s b n ∧
    (min (n - b) 2 : ℕ) ≤ exact m.elapsed

theorem tracks_start (s : ℕ → Float32) : Tracks s 0 start where
  silentBefore _ := rfl
  previous k hk := absurd hk (Nat.succ_ne_zero k).symm
  armed := ⟨fun _ => risenBefore_zero s, fun _ => rfl⟩
  isCount := ⟨rfl, le_rfl, by change (0 : ℚ) ≤ 2 ^ 24; norm_num⟩
  begins := ⟨0, ⟨le_rfl, .inl rfl, fun k _ hk => absurd hk (Nat.not_lt_zero k)⟩,
    rfl, le_rfl⟩

section Step

variable {signal : ℕ → Float32} {n : ℕ} {m : PeriodMeter}

theorem isFinite_silenced (signal : ℕ → Float32) (n : ℕ) :
    (silenced signal n).isFinite = true :=
  isFinite_finiteOrZero (signal n)

theorem Tracks.armed_and_neg_iff (h : Tracks (silenced signal) n m) :
    (m.armed = true ∧ finiteOrZero (signal n) < 0) ↔
      FallsAt (silenced signal) n := by
  rw [h.armed, FallsAt, and_comm]
  rfl

theorem Tracks.hear_of_not_fallsAt (h : Tracks (silenced signal) n m)
    (hfalls : ¬ FallsAt (silenced signal) n) :
    Tracks (silenced signal) (n + 1) (m.hear (signal n)).1 := by
  rw [hear_of_not_falls (mt h.armed_and_neg_iff.mp hfalls)]
  obtain ⟨b, hb, hsum, hleast⟩ := h.begins
  refine ⟨fun hn => absurd hn (Nat.succ_ne_zero n), ?_, ?_, h.isCount.add_one,
    b, hb.succ hfalls, ?_, ?_⟩
  · rintro k hk
    rw [← Nat.succ_injective hk]
    rfl
  · change (m.armed || decide (0 < silenced signal n)) = true ↔ _
    rw [risenBefore_succ_iff (isFinite_silenced signal n) hfalls, ← h.armed,
      Bool.or_eq_true, decide_eq_true_eq]
  · rw [magnitudeSum_succ _ hb.le, ← hsum]
    rfl
  · rw [Nat.sub_add_comm hb.le]
    exact h.isCount.atLeast_add_one hleast

/-- Directly before the first negative sample of a signal that has risen there
is silence or a sample that is not negative. -/
theorem Tracks.zero_le_previous (h : Tracks (silenced signal) n m)
    (hrisen : RisenBefore (silenced signal) n) :
    m.previous.isFinite = true ∧ 0 ≤ exact m.previous := by
  cases n with
  | zero =>
    rw [h.silentBefore rfl]
    exact ⟨rfl, le_rfl⟩
  | succ k =>
    rw [h.previous k rfl]
    exact ⟨isFinite_silenced signal k,
      nonneg_of_risenBefore_succ (isFinite_silenced signal k) hrisen⟩

theorem Tracks.isFraction
    (h : Tracks (silenced signal) n m) (hfalls : FallsAt (silenced signal) n) :
    IsFraction (Crossing.fraction m.previous (silenced signal n)) := by
  have hneg := (neg_iff (isFinite_silenced signal n)).mp hfalls.1
  obtain ⟨hfinite, hnonneg⟩ := h.zero_le_previous hfalls.2
  exact isFraction_fraction hfinite (isFinite_silenced signal n) hnonneg hneg

theorem Tracks.hear_of_fallsAt
    (h : Tracks (silenced signal) n m) (hfalls : FallsAt (silenced signal) n) :
    Tracks (silenced signal) (n + 1) (m.hear (signal n)).1 := by
  have hfraction := h.isFraction hfalls
  obtain ⟨harmed, hneg⟩ := h.armed_and_neg_iff.mpr hfalls
  rw [hear_of_falls harmed hneg]
  obtain ⟨hfallen, helapsed, hgathered⟩ :=
    fall_fst (m.counted (finiteOrZero (signal n))) (finiteOrZero (signal n))
  refine ⟨fun hn => absurd hn (Nat.succ_ne_zero n), ?_, ?_, ?_, n + 1,
    ?_, ?_, ?_⟩
  · rintro k hk
    rw [← Nat.succ_injective hk]
    rfl
  · have hrisen :=
      not_risenBefore_of_fallsAt (isFinite_silenced signal n) hfalls
    simp only [hfallen, hrisen, Bool.false_eq_true]
  · change IsCount (PeriodMeter.fall _ _).1.elapsed
    rw [helapsed]
    exact hfraction.isCount
  · exact ⟨le_rfl, .inr ⟨n, rfl, hfalls⟩, fun k hk hlt => by omega⟩
  · rw [magnitudeSum_self]
    exact hgathered
  · rw [Nat.sub_self]
    change ((0 : ℕ) : ℚ) ≤ exact (PeriodMeter.fall _ _).1.elapsed
    rw [helapsed, Nat.cast_zero]
    exact hfraction.nonneg

end Step

theorem tracks_after (signal : ℕ → Float32) (n : ℕ) :
    Tracks (silenced signal) n (after signal n) := by
  induction n with
  | zero => exact tracks_start _
  | succ n ih =>
    by_cases hfalls : FallsAt (silenced signal) n
    · exact ih.hear_of_fallsAt hfalls
    · exact ih.hear_of_not_fallsAt hfalls

/-! ## The reports -/

/-- Only the very first sample can be behind a falling crossing that closes no
cycle.  One sample has been counted by then, and the crossing lies one sample
back. -/
theorem reported_zero (signal : ℕ → Float32) : reported signal 0 = none := by
  by_cases hfalls : FallsAt (silenced signal) 0
  · have hfraction := (tracks_start (silenced signal)).isFraction hfalls
    have hcount : IsCount (0 + 1) :=
      (tracks_start (silenced signal)).isCount.add_one
    have hone : exact (Crossing.fraction 0 (silenced signal 0)) = 1 :=
      fraction_after_silence rfl (isFinite_silenced signal 0) rfl
        ((neg_iff (isFinite_silenced signal 0)).mp hfalls.1)
    have hstart : exact (0 + 1) = 1 := by
      rw [(add_one_finite (e := 0) (tracks_start (silenced signal)).isCount).2,
        exact_zero, zero_add]
      exact nearest_of_onGrid onGrid_one
    rw [reported, after, hear_reports rfl hfalls.1 rfl]
    exact if_neg (not_pos_period hcount hfraction (hstart.trans hone.symm))
  · rw [reported, hear_of_not_falls]
    exact mt (tracks_start (silenced signal)).armed_and_neg_iff.mp hfalls

theorem reported_of_not_fallsAt
    {signal : ℕ → Float32} {n : ℕ} (hfalls : ¬ FallsAt (silenced signal) n) :
    reported signal n = none := by
  rw [reported,
    hear_of_not_falls (mt (tracks_after signal n).armed_and_neg_iff.mp hfalls)]

/-- Every later falling crossing closes a cycle.  It ends after the first
sample, so two samples or more have been counted. -/
theorem reported_of_fallsAt {signal : ℕ → Float32} {n : ℕ}
    (hfalls : FallsAt (silenced signal) n) (hn : 1 ≤ n) :
    ∃ c, reported signal n = some c ∧ c.period.isFinite = true ∧ 1 ≤ c.period ∧
      ∃ b, CycleBegins (silenced signal) b n ∧
        c.energy = magnitudeSum (silenced signal) b (n + 1) / c.period := by
  have h := tracks_after signal n
  have hfraction := h.isFraction hfalls
  obtain ⟨b, hb, hsum, hleast⟩ := h.begins
  obtain ⟨harmed, hneg⟩ := h.armed_and_neg_iff.mpr hfalls
  have htwo : 2 ≤ exact ((after signal n).elapsed + 1) := by
    have hcount := h.isCount.atLeast_add_one hleast
    rw [← Nat.sub_add_comm hb.le,
      min_eq_right (hb.two_le (isFinite_silenced signal) hfalls hn)] at hcount
    exact_mod_cast hcount
  have hone := one_le_period h.isCount.add_one hfraction htwo
  have hfinite := (sub_finite h.isCount.add_one hfraction).1
  generalize hperiod : (after signal n).elapsed + 1 -
    Crossing.fraction (after signal n).previous (silenced signal n) =
      period at hone hfinite
  refine ⟨⟨period, magnitudeSum (silenced signal) b (n + 1) / period⟩,
    ?_, hfinite, hone, b, hb, rfl⟩
  rw [magnitudeSum_succ _ hb.le, ← hsum, reported,
    hear_reports harmed hneg hperiod]
  exact if_pos (pos_of_one_le hfinite hone)

theorem counts_after (signal : ℕ → Float32) (n : ℕ) :
    (after signal n).cycleCount =
      Nat.count (fun i => (reported signal i).isSome) n ∧
      (after signal n).counters.toList =
        PhaseCounters.moduli.map ((after signal n).cycleCount % ·) := by
  induction n with
  | zero => exact ⟨rfl, rfl⟩
  | succ n ih =>
    obtain ⟨hcount, hcounters⟩ := ih
    rcases hear_counts (after signal n) (signal n) with ⟨hsome, hc,
      hp⟩ | ⟨hnone, hc, hp⟩
    · rw [after, hc, hp, Nat.count_succ, reported, if_pos hsome, ← hcount]
      exact ⟨rfl, PhaseCounters.toList_next hcounters⟩
    · rw [after, hc, hp, Nat.count_succ, reported,
        if_neg (Bool.eq_false_iff.mp hnone), ← hcount]
      exact ⟨rfl, hcounters⟩

theorem fallsAt_of_reported {signal : ℕ → Float32} {n : ℕ} {c : Cycle}
    (hc : reported signal n = some c) :
    FallsAt (silenced signal) n ∧ 1 ≤ n := by
  refine ⟨by_contra fun hfalls => ?_, Nat.one_le_iff_ne_zero.mpr ?_⟩
  · rw [reported_of_not_fallsAt hfalls] at hc
    contradiction
  · rintro rfl
    rw [reported_zero] at hc
    contradiction

/-- What a report says about the cycle that it closes. -/
theorem cycle_of_reported {signal : ℕ → Float32} {n : ℕ} {c : Cycle}
    (hc : reported signal n = some c) :
    c.period.isFinite = true ∧ 1 ≤ c.period ∧
      ∃ b, CycleBegins (silenced signal) b n ∧
        c.energy = magnitudeSum (silenced signal) b (n + 1) / c.period := by
  obtain ⟨hfalls, hn⟩ := fallsAt_of_reported hc
  obtain ⟨c', hc', hcycle⟩ := reported_of_fallsAt hfalls hn
  rw [hc', Option.some_inj] at hc
  exact hc ▸ hcycle

theorem isSome_reported_iff (signal : ℕ → Float32) (n : ℕ) :
    (reported signal n).isSome = true ↔
      FallsAt (silenced signal) n ∧ 1 ≤ n := by
  constructor
  · intro hsome
    obtain ⟨c, hc⟩ := Option.isSome_iff_exists.mp hsome
    exact fallsAt_of_reported hc
  · rintro ⟨hfalls, hn⟩
    obtain ⟨c, hc, -⟩ := reported_of_fallsAt hfalls hn
    rw [hc]
    rfl

/-- A detector passes every sample to its meter, and begins anew after a
reset. -/
theorem meter_hearAll_reset {π ω : Type} [Player π ω] (d : Detector π)
    (signal : ℕ → Float32) (n : ℕ) :
    (d.reset.hearAll (Array.ofFn fun i : Fin n => signal i)).1.meter =
      after signal n := by
  induction n with
  | zero => rfl
  | succ n ih =>
    rw [Array.ofFn_succ, Detector.hearAll_push, after, ← ih]
    rfl

/-- A meter reports a cycle on every falling crossing but one on the very first
sample.  The cycle reaches from the crossing before, or from the start of the
signal, and its period is at least one sample. -/
theorem reports_cycles (signal : ℕ → Float32) (n : ℕ) :
    ((reported signal n).isSome ↔ FallsAt (silenced signal) n ∧ 1 ≤ n) ∧
    (∀ c ∈ reported signal n,
      c.period.isFinite = true ∧ 1 ≤ c.period ∧
        ∃ b, CycleBegins (silenced signal) b n ∧
          c.energy = magnitudeSum (silenced signal) b (n + 1) / c.period) ∧
    (after signal n).cycleCount =
      Nat.count (fun i => (reported signal i).isSome) n ∧
    (after signal n).counters.toList =
      PhaseCounters.moduli.map ((after signal n).cycleCount % ·) ∧
    ∀ {π ω : Type} [Player π ω] (d : Detector π),
      (d.reset.hearAll (Array.ofFn fun i : Fin n => signal i)).1.meter =
        after signal n := by
  exact ⟨isSome_reported_iff signal n, fun c hc => cycle_of_reported hc,
    (counts_after signal n).1, (counts_after signal n).2,
    fun d => meter_hearAll_reset d signal n⟩

end PeriodMeter

end PitchFollower
