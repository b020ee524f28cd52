import PitchFollower.Proofs.Period.Drift
import PitchFollower.Proofs.Period.Energies
import PitchFollower.Proofs.Single.Scaling

/-!
# Pitch does not depend on gain

Two meters hear the same signal, one of them amplified by a power of two.  The
place of a crossing is a quotient of two amplitudes, which the gain cancels out
of, so the meters measure the same periods, bit by bit.  Sums of magnitudes and
energies are on the scale of the signal.  All of this takes samples that are
neither so faint nor so strong that the gain drives a rounded result out of the
range of full mantissas.
-/

namespace PitchFollower

open Single

/-! ## Samples of moderate magnitude -/

/-- Zero, or at least `2 ^ (-60)`. -/
def Clear (q : ℚ) : Prop :=
  q = 0 ∨ 2 ^ (-60 : ℤ) ≤ q

/-- A sample that is zero or has a magnitude from `2 ^ (-60)` to `2 ^ 60`. -/
structure Midrange (x : Float32) : Prop where
  isFinite : x.isFinite = true
  clear : Clear |exact x|
  abs_le : |exact x| ≤ 2 ^ (60 : ℤ)

section Clear

variable {q r : ℚ} {x : Float32}

theorem Clear.nonneg (h : Clear q) : 0 ≤ q := by
  rcases h with rfl | hle
  · exact le_rfl
  · exact (two_zpow_pos _).le.trans hle

theorem Clear.add (hq : Clear q) (hr : Clear r) : Clear (q + r) := by
  have hqnonneg := hq.nonneg
  have hrnonneg := hr.nonneg
  rcases hq with rfl | hle
  · rwa [zero_add]
  · exact .inr (hle.trans (le_add_of_nonneg_right hrnonneg))

theorem Clear.nearest (h : Clear q) : Clear (nearest q) := by
  rcases h with rfl | hle
  · exact .inl nearest_zero
  · exact .inr ((onGrid_zpow (by norm_num)).le_nearest hle)

theorem Clear.movable (h : Clear q) (hmost : q ≤ 2 ^ (97 : ℤ)) : Movable q := by
  have hnonneg := h.nonneg
  rcases h with rfl | hle
  · exact .inl rfl
  · rw [Movable, abs_of_nonneg hnonneg]
    exact .inr ⟨le_trans (zpow_le_zpow_right₀ (by norm_num) (by norm_num)) hle,
      hmost⟩

/-- A clear number divided by a period. -/
theorem Clear.movable_div (h : Clear q) (hmost : q ≤ 2 ^ (97 : ℤ))
    (hone : 1 ≤ r) (hfew : r ≤ 2 ^ (24 : ℤ)) : Movable (q / r) := by
  have hnonneg := h.nonneg
  have hpos : 0 < r := zero_lt_one.trans_le hone
  rcases h with rfl | hle
  · exact .inl (zero_div r)
  · rw [Movable, abs_of_nonneg (div_nonneg hnonneg hpos.le)]
    right
    constructor
    · calc (2 : ℚ) ^ (-96 : ℤ) ≤ 2 ^ (-60 : ℤ) / 2 ^ (24 : ℤ) := by norm_num
        _ ≤ q / r := div_le_div₀ hnonneg hle hpos hfew
    · exact (div_le_self hnonneg hone).trans hmost

theorem Midrange.movable (hx : Midrange x) : Movable (exact x) := by
  have habs := hx.clear.movable
    (hx.abs_le.trans (zpow_le_zpow_right₀ (by norm_num) (by norm_num)))
  rw [Movable, abs_abs, abs_eq_zero] at habs
  exact habs

theorem midrange_zero : Midrange 0 := by
  refine ⟨rfl, .inl ?_, ?_⟩
  · rw [exact_zero, abs_zero]
  · rw [exact_zero, abs_zero]
    exact (two_zpow_pos 60).le

end Clear

/-! ## Crossings -/

/-- The place of a crossing does not depend on the scale of its two samples.
The fall from the one to the other lies within the range of numbers on either
scale. -/
theorem fraction_eq_of_scaled {k : ℤ} {last first last' first' : Float32}
    (hk : |k| ≤ 30) (hlast : Scaled k last last')
    (hfirst : Scaled k first first') (hnonneg : 0 ≤ exact last)
    (hneg : exact first < 0) (hlastmost : |exact last| ≤ 2 ^ (60 : ℤ))
    (hfirstmid : Midrange first) :
    Crossing.fraction last' first' = Crossing.fraction last first := by
  have hpow := two_zpow_pos k
  have hnonneg' : 0 ≤ exact last' := by
    rw [hlast.exact_eq]
    exact mul_nonneg hnonneg hpow.le
  have hneg' : exact first' < 0 := by
    rw [hfirst.exact_eq]
    exact mul_neg_of_neg_of_pos hneg hpow
  rw [abs_of_nonneg hnonneg] at hlastmost
  have hleast := hfirstmid.clear.resolve_left (abs_ne_zero.mpr hneg.ne)
  have hmost := hfirstmid.abs_le
  rw [abs_of_neg hneg] at hleast hmost
  have hdropleast : 2 ^ (-60 : ℤ) ≤ exact last - exact first := by linarith
  have hdropmost : exact last - exact first ≤ 2 ^ (61 : ℤ) := by
    calc exact last - exact first ≤ 2 ^ (60 : ℤ) + 2 ^ (60 : ℤ) := by linarith
      _ = 2 ^ (61 : ℤ) := by norm_num
  have hdrop : Scaled k (last - first) (last' - first') :=
    hlast.sub hfirst hk (Clear.movable (.inr hdropleast)
      (hdropmost.trans (zpow_le_zpow_right₀ (by norm_num) (by norm_num))))
  have hexact :=
    (sub_roundsTo hlast.isFinite hfirst.isFinite).exact_eq hdrop.isFinite
  have hdroppos : 0 < exact (last - first) := by
    rw [hexact]
    exact (two_zpow_pos _).trans_le
      ((onGrid_zpow (by norm_num)).le_nearest hdropleast)
  have hdroptop : exact (last - first) ≤ 2 ^ (61 : ℤ) := by
    rw [hexact]
    exact (onGrid_zpow (by norm_num)).nearest_le hdropmost
  have hquot : nearest (exact (-first) / exact (last - first)) ≠ 0 := by
    have hle : (2 : ℚ) ^ (-121 : ℤ) ≤
        exact (-first) / exact (last - first) := by
      rw [exact_neg]
      calc (2 : ℚ) ^ (-121 : ℤ) = 2 ^ (-60 : ℤ) / 2 ^ (61 : ℤ) := by norm_num
        _ ≤ -exact first / exact (last - first) :=
          div_le_div₀ (by linarith) hleast hdroppos hdroptop
    exact ((two_zpow_pos _).trans_le
      ((onGrid_zpow (by norm_num)).le_nearest hle)).ne'
  rw [fraction_eq_div hlast.isFinite hfirst.isFinite hnonneg hneg,
    fraction_eq_div hlast.scaled_isFinite hfirst.scaled_isFinite hnonneg' hneg']
  exact hfirst.neg.div_eq hdrop hdroppos.ne' hquot

/-! ## Two meters -/

/-- The same period, and an energy moved up by `k` binary places. -/
structure Cycle.Amplified (k : ℤ) (c c' : Cycle) : Prop where
  period : c'.period = c.period
  energy : Scaled k c.energy c'.energy

namespace PeriodMeter

/-- Two meters that know the same of the times, and whose samples, sums and
energies are `k` binary places apart. -/
structure Amplified (k : ℤ) (m m' : PeriodMeter) : Prop where
  previous : Scaled k m.previous m'.previous
  armed : m'.armed = m.armed
  elapsed : m'.elapsed = m.elapsed
  period : m'.period = m.period
  gathered : Scaled k m.gathered m'.gathered
  energy : Scaled k m.energy m'.energy
  counters : m'.counters = m.counters
  cycleCount : m'.cycleCount = m.cycleCount

section Step

variable {k : ℤ} {m m' : PeriodMeter} {x x' : Float32}

theorem scaled_zero (k : ℤ) : Scaled k 0 0 :=
  ⟨rfl, rfl, by rw [exact_zero, zero_mul]⟩

theorem amplified_start (k : ℤ) : Amplified k start start :=
  ⟨scaled_zero k, rfl, rfl, rfl, scaled_zero k, scaled_zero k, rfl, rfl⟩

theorem Amplified.counted (h : Amplified k m m') (hx : Scaled k x x')
    (hk : |k| ≤ 30) (hsum : Movable (exact m.gathered + |exact x|)) :
    Amplified k (m.counted x) (m'.counted x') := by
  rw [← exact_abs] at hsum
  exact { h with
    elapsed := congrArg (· + 1) h.elapsed
    gathered := h.gathered.add hx.abs hk hsum }

/-- A fall at the same place closes the same cycle, with an energy on the scale
of the sum that it comes from. -/
theorem Amplified.fall (h : Amplified k m m') (hk : |k| ≤ 30) {period : Float32}
    (hfraction : Crossing.fraction m'.previous x' =
      Crossing.fraction m.previous x)
    (hperiod : m.elapsed - Crossing.fraction m.previous x = period)
    (hfinite : period.isFinite = true)
    (henergy : 0 < period → Movable (exact m.gathered / exact period)) :
    Amplified k (m.fall x).1 (m'.fall x').1 ∧
      Option.Rel (Cycle.Amplified k) (m.fall x).2 (m'.fall x').2 := by
  unfold PeriodMeter.fall
  dsimp only
  rw [hfraction, h.elapsed, hperiod]
  by_cases hpositive : 0 < period
  · have hne : exact period ≠ 0 := ((Single.pos_iff hfinite).mp hpositive).ne'
    have hscaled := h.gathered.div hfinite hne hk (henergy hpositive)
    rw [if_pos hpositive, if_pos hpositive, h.counters, h.cycleCount]
    exact ⟨⟨h.previous, rfl, rfl, rfl, scaled_zero k, hscaled, rfl, rfl⟩,
      .some ⟨rfl, hscaled⟩⟩
  · rw [if_neg hpositive, if_neg hpositive]
    exact ⟨⟨h.previous, rfl, rfl, h.period, scaled_zero k, h.energy, h.counters,
      h.cycleCount⟩, .none⟩

end Step

/-! ## Sums -/

section Sums

variable {signal : ℕ → Float32} {b n : ℕ}

theorem clear_magnitudeSum (h : b ≤ n)
    (hsignal : ∀ i < n, Midrange (silenced signal i)) :
    Clear (exact (magnitudeSum (silenced signal) b n)) ∧
      exact (magnitudeSum (silenced signal) b n) ≤ 2 ^ (84 : ℤ) := by
  have hbounded : ∀ j, b ≤ j → j ≤ n →
      Within (2 ^ (84 : ℤ)) (magnitudeSum (silenced signal) b j) := by
    intro j hbj hjn
    have hsum := within_magnitudeSum (a := 60) (by norm_num) (by norm_num) hbj
      fun i hi => ⟨(hsignal i (hi.trans_le hjn)).isFinite,
        (hsignal i (hi.trans_le hjn)).abs_le⟩
    refine hsum.mono ?_
    have hfew : ((min (j - b) (2 ^ 24) : ℕ) : ℚ) ≤ 2 ^ 24 := by
      exact_mod_cast min_le_right (j - b) (2 ^ 24)
    calc ((min (j - b) (2 ^ 24) : ℕ) : ℚ) * 2 ^ (60 : ℤ) ≤
        2 ^ 24 * 2 ^ (60 : ℤ) := by gcongr
      _ = 2 ^ (84 : ℤ) := by norm_num
  refine ⟨?_, (le_abs_self _).trans (hbounded n h le_rfl).abs_le⟩
  induction n, h using Nat.le_induction with
  | base =>
    rw [magnitudeSum_self]
    exact .inl exact_zero
  | succ n h ih =>
    have hlast := hsignal n (Nat.lt_succ_self n)
    have hbefore := ih (fun i hi => hsignal i (hi.trans (Nat.lt_succ_self n)))
      fun j hbj hjn => hbounded j hbj (hjn.trans (Nat.le_succ n))
    have hsum := add_roundsTo (hbounded n h (Nat.le_succ n)).isFinite
      ((isFinite_abs _).trans hlast.isFinite)
    rw [← magnitudeSum_succ _ h] at hsum
    rw [hsum.exact_eq
      (hbounded (n + 1) (h.trans (Nat.le_succ n)) le_rfl).isFinite, exact_abs]
    exact (hbefore.add hlast.clear).nearest

end Sums

/-! ## Runs -/

section Run

variable {signal signal' : ℕ → Float32} {k : ℤ} {n : ℕ}

theorem midrange_previous (hsignal : ∀ i < n, Midrange (silenced signal i)) :
    Midrange (after signal n).previous := by
  have htracks := tracks_after signal n
  cases n with
  | zero =>
    rw [htracks.silentBefore rfl]
    exact midrange_zero
  | succ n =>
    rw [htracks.previous n rfl]
    exact hsignal n (Nat.lt_succ_self n)

theorem movable_gathered (hsignal : ∀ i < n + 1, Midrange (silenced signal i)) :
    Movable
      (exact (after signal n).gathered + |exact (silenced signal n)|) := by
  obtain ⟨b, hb, hgathered, -⟩ := (tracks_after signal n).begins
  obtain ⟨hclear, hmost⟩ := clear_magnitudeSum hb.le
    fun i hi => hsignal i (hi.trans (Nat.lt_succ_self n))
  have hlast := hsignal n (Nat.lt_succ_self n)
  have hlastmost := hlast.abs_le
  rw [hgathered]
  apply (hclear.add hlast.clear).movable
  norm_num at hmost hlastmost ⊢
  linarith

/-- The energy of a cycle can be amplified, because its period is neither
shorter than a sample nor longer than a count can get. -/
theorem movable_energy (hsignal : ∀ i < n + 1, Midrange (silenced signal i))
    {period energy : Float32} (hc : reported signal n = some ⟨period, energy⟩) :
    Movable (exact ((after signal n).gathered + (silenced signal n).abs) /
      exact period) := by
  have htracks := tracks_after signal n
  have hfraction := htracks.isFraction (fallsAt_of_reported hc).1
  obtain ⟨b, hb, hgathered, -⟩ := htracks.begins
  obtain ⟨hclear, hmost⟩ :=
    clear_magnitudeSum (hb.le.trans (Nat.le_succ n)) hsignal
  rw [hgathered, ← magnitudeSum_succ _ hb.le]
  apply hclear.movable_div
  · exact hmost.trans (zpow_le_zpow_right₀ (by norm_num) (by norm_num))
  · exact (period_bounds hc).2
  · have hcount := htracks.isCount.add_one.le_most
    have hnonneg := hfraction.nonneg
    have hperiod : period = _ := period_of_reported hc
    rw [hperiod, (sub_finite htracks.isCount.add_one hfraction).2]
    apply (onGrid_zpow (by norm_num)).nearest_le
    norm_num at hcount ⊢
    linarith

/-- The sample after which the first meter falls is the one after which the
second does. -/
theorem Amplified.hear (h : Amplified k (after signal n) (after signal' n))
    (hk : |k| ≤ 30) (hsignal : ∀ i < n + 1, Midrange (silenced signal i))
    (hscaled : Scaled k (silenced signal n) (silenced signal' n)) :
    Amplified k (after signal (n + 1)) (after signal' (n + 1)) ∧
      Option.Rel (Cycle.Amplified k) (reported signal n)
        (reported signal' n) := by
  have htracks := tracks_after signal n
  have hcounted := h.counted hscaled hk (movable_gathered hsignal)
  by_cases hfalls : (after signal n).armed = true ∧ silenced signal n < 0
  · obtain ⟨harmed, hneg⟩ := hfalls
    have hfallsAt := htracks.armed_and_neg_iff.mp ⟨harmed, hneg⟩
    have hfraction := htracks.isFraction hfallsAt
    have hplace :
        Crossing.fraction (after signal' n).previous (silenced signal' n) =
          Crossing.fraction (after signal n).previous (silenced signal n) :=
      fraction_eq_of_scaled hk h.previous hscaled
        (htracks.zero_le_previous hfallsAt.2).2
        ((Single.neg_iff hscaled.isFinite).mp hneg)
        (midrange_previous fun i hi =>
          hsignal i (hi.trans (Nat.lt_succ_self n))).abs_le
        (hsignal n (Nat.lt_succ_self n))
    have hfinite := (sub_finite htracks.isCount.add_one hfraction).1
    obtain ⟨period, hperiod⟩ : ∃ period, (after signal n).elapsed + 1 -
        Crossing.fraction (after signal n).previous (silenced signal n) =
          period := ⟨_, rfl⟩
    rw [hperiod] at hfinite
    have henergy : 0 < period → Movable
        (exact ((after signal n).gathered + (silenced signal n).abs) /
          exact period) := by
      intro hpositive
      have hreport := hear_reports harmed hneg hperiod
      rw [if_pos hpositive] at hreport
      exact movable_energy hsignal hreport
    obtain ⟨hfallen, hcycles⟩ := hcounted.fall hk hplace hperiod hfinite henergy
    have harmed' : (after signal' n).armed = true := h.armed.trans harmed
    have hneg' : silenced signal' n < 0 := hscaled.neg_iff.mpr hneg
    rw [reported, reported, after, after, hear_of_falls harmed hneg,
      hear_of_falls harmed' hneg']
    exact ⟨{ hfallen with previous := hscaled }, hcycles⟩
  · have hfalls' :
        ¬ ((after signal' n).armed = true ∧ silenced signal' n < 0) := by
      rwa [h.armed, hscaled.neg_iff]
    rw [reported, reported, after, after, hear_of_not_falls hfalls,
      hear_of_not_falls hfalls']
    refine ⟨{ hcounted with previous := hscaled, armed := ?_ }, .none⟩
    change ((after signal' n).armed || decide (0 < silenced signal' n)) =
      ((after signal n).armed || decide (0 < silenced signal n))
    rw [h.armed, decide_eq_decide.mpr hscaled.pos_iff]

theorem amplified_after (hk : |k| ≤ 30)
    (hsignal : ∀ i < n, Midrange (silenced signal i))
    (hscaled : ∀ i < n, Scaled k (silenced signal i) (silenced signal' i)) :
    Amplified k (after signal n) (after signal' n) := by
  induction n with
  | zero => exact amplified_start k
  | succ n ih =>
    have hbefore := ih (fun i hi => hsignal i (hi.trans (Nat.lt_succ_self n)))
      fun i hi => hscaled i (hi.trans (Nat.lt_succ_self n))
    exact (hbefore.hear hk hsignal (hscaled n (Nat.lt_succ_self n))).1

end Run

/-- Amplified by a power of two, a signal closes cycles on the same samples,
with the same periods, and energies amplified exactly as the samples are.  The
time since the last crossing and the counters are the same throughout. -/
theorem gain_scales_energies {signal : ℕ → Float32} {gain : Float32} {k : ℤ}
    (hk : |k| ≤ 30) (hgain : exact gain = 2 ^ k) {n : ℕ}
    (hsignal : ∀ i < n, Midrange (signal i)) :
    let amplified := fun i => signal i * gain
    (∀ i < n, Scaled k (signal i) (amplified i) ∧
      Option.Rel (Cycle.Amplified k) (reported signal i)
        (reported amplified i)) ∧
    ∀ i ≤ n, (after amplified i).elapsed = (after signal i).elapsed ∧
      (after amplified i).counters = (after signal i).counters := by
  intro amplified
  have hproduct : ∀ i < n, Scaled k (signal i) (amplified i) := by
    intro i hi
    exact scaled_mul (hsignal i hi).isFinite hgain hk (hsignal i hi).movable
  have hsilenced : ∀ i < n, silenced signal i = signal i ∧
      silenced amplified i = amplified i := by
    intro i hi
    exact ⟨if_pos (hproduct i hi).isFinite,
      if_pos (hproduct i hi).scaled_isFinite⟩
  have hmid : ∀ i < n, Midrange (silenced signal i) := by
    intro i hi
    rw [(hsilenced i hi).1]
    exact hsignal i hi
  have hscaled : ∀ i <
      n, Scaled k (silenced signal i) (silenced amplified i) := by
    intro i hi
    rw [(hsilenced i hi).1, (hsilenced i hi).2]
    exact hproduct i hi
  have hmeters : ∀ i ≤ n, Amplified k (after signal i) (after amplified i) := by
    intro i hi
    exact amplified_after hk (fun j hj => hmid j (hj.trans_le hi))
      fun j hj => hscaled j (hj.trans_le hi)
  constructor
  · intro i hi
    have hstep := (hmeters i hi.le).hear hk
      (fun j hj => hmid j (hj.trans_le hi)) (hscaled i hi)
    exact ⟨hproduct i hi, hstep.2⟩
  · intro i hi
    exact ⟨(hmeters i hi).elapsed, (hmeters i hi).counters⟩

/-- The gain `2 ^ (-30)`. -/
def faint : Float32 :=
  .ofBits 0x30800000

theorem gain_scales_energies_lopsided :
    (|(-30 : ℤ)| ≤ 30 ∧ exact faint = 2 ^ (-30 : ℤ) ∧
      ∀ i < 25, Midrange (lopsided i)) ∧
      (reports lopsided 25).length = 3 ∧
      let amplified := fun i => lopsided i * faint
      (∀ i < 25, Scaled (-30) (lopsided i) (amplified i) ∧
        Option.Rel (Cycle.Amplified (-30)) (reported lopsided i)
          (reported amplified i)) ∧
      ∀ i ≤ 25, (after amplified i).elapsed = (after lopsided i).elapsed ∧
        (after amplified i).counters = (after lopsided i).counters := by
  have hk : |(-30 : ℤ)| ≤ 30 := by decide
  have hgain : exact faint = 2 ^ (-30 : ℤ) := by decide +kernel
  have hsignal : ∀ i < 25, Midrange (lopsided i) := by
    intro i _
    unfold lopsided
    split_ifs
    · exact ⟨by decide +kernel, .inr (by decide +kernel), by decide +kernel⟩
    · exact ⟨by decide +kernel, .inr (by decide +kernel), by decide +kernel⟩
  exact ⟨⟨hk, hgain, hsignal⟩, by decide +kernel,
    gain_scales_energies hk hgain hsignal⟩

end PeriodMeter

end PitchFollower
