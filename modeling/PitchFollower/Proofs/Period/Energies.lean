import PitchFollower.Proofs.Period.Reports
import PitchFollower.Proofs.Single.Magnitude

/-!
# Energies

A meter takes a sample that is not finite for silence, so its times are always
finite.  Its energies are not: the magnitudes of one cycle can add up to more
than the largest number, and the sum is then infinite, though never worse.
Samples of magnitude at most `2 ^ 103` cannot do that in a cycle of any length,
because the sum stops growing when it has grown to `2 ^ 24` of them.
-/

namespace PitchFollower.PeriodMeter

open Single

/-! ## Counts -/

section Counts

variable {signal : ℕ → Float32} {b n : ℕ}

theorem count_le_elapsed (hb : CycleBegins (silenced signal) b n) :
    (min (n - b) (2 ^ 24) : ℕ) ≤ exact (after signal n).elapsed := by
  induction n with
  | zero =>
    rw [Nat.zero_sub, Nat.zero_min, Nat.cast_zero]
    exact (tracks_after signal 0).isCount.nonneg
  | succ n ih =>
    rcases hb.le.eq_or_lt with rfl | hlt
    · rw [Nat.sub_self, Nat.zero_min, Nat.cast_zero]
      exact (tracks_after signal (n + 1)).isCount.nonneg
    · have hle : b ≤ n := Nat.lt_succ_iff.mp hlt
      have hbefore : CycleBegins (silenced signal) b n :=
        ⟨hle, hb.behind,
          fun k hbk hk => hb.unbroken k hbk (hk.trans (Nat.lt_succ_self n))⟩
      rw [elapsed_of_not_fallsAt (hb.unbroken n hle (Nat.lt_succ_self n)),
        Nat.sub_add_comm hle]
      exact (tracks_after signal n).isCount.min_add_one_le le_rfl (ih hbefore)

theorem count_le_period {c : Cycle} (hc : reported signal n = some c)
    (hb : CycleBegins (silenced signal) b n) :
    (min (n + 1 - b) (2 ^ 24) : ℕ) - 1 ≤ exact c.period := by
  have htracks := tracks_after signal n
  have hfraction := htracks.isFraction (fallsAt_of_reported hc).1
  have hcount := htracks.isCount.min_add_one_le le_rfl (count_le_elapsed hb)
  rw [← Nat.sub_add_comm hb.le] at hcount
  have hone : 1 ≤ min (n + 1 - b) (2 ^ 24) := by
    have := hb.le
    omega
  have hgrid : OnGrid (min (n + 1 - b) (2 ^ 24) - 1 : ℕ) :=
    onGrid_natCast (by omega)
  rw [Nat.cast_sub hone, Nat.cast_one] at hgrid
  rw [period_of_reported hc, (sub_finite htracks.isCount.add_one hfraction).2]
  apply hgrid.le_nearest
  linarith [hfraction.le_one]

end Counts

/-! ## Sums of magnitudes -/

section Sums

variable {s : ℕ → Float32} {a : ℤ} {b n : ℕ}

theorem zero_le_magnitudeSum (hs : ∀ i, (s i).isFinite = true) (h : b ≤ n) :
    0 ≤ magnitudeSum s b n := by
  induction n, h using Nat.le_induction with
  | base =>
    rw [magnitudeSum_self, zero_le_iff]
    exact .inl ⟨rfl, exact_zero.ge⟩
  | succ n h ih =>
    rw [magnitudeSum_succ s h]
    apply zero_le_add ih
    · rw [isFinite_abs]
      exact hs n
    · rw [exact_abs]
      exact abs_nonneg _

/-- A sum of bounded magnitudes stops growing at `2 ^ 24` times their bound: the
next magnitude is a tie at most, and goes to the even sum. -/
theorem within_magnitudeSum (hleast : -149 ≤ a) (hmost : a ≤ 103) (h : b ≤ n)
    (hs : ∀ i < n, Within (2 ^ a) (s i)) :
    Within ((min (n - b) (2 ^ 24) : ℕ) * 2 ^ a) (magnitudeSum s b n) := by
  have htop : (2 ^ 24 * 2 ^ a : ℚ) < 2 ^ 128 := by
    calc (2 ^ 24 * 2 ^ a : ℚ) ≤ 2 ^ 24 * 2 ^ (103 : ℤ) := by gcongr; norm_num
      _ < 2 ^ 128 := by norm_num
  induction n, h using Nat.le_induction with
  | base =>
    rw [magnitudeSum_self]
    exact ⟨rfl, by simp [exact_zero]⟩
  | succ n h ih =>
    have hsum := ih fun i hi => hs i (hi.trans (Nat.lt_succ_self n))
    have hlast := (hs n (Nat.lt_succ_self n)).abs
    rw [magnitudeSum_succ s h]
    by_cases hfull : 2 ^ 24 ≤ n - b
    · have hbefore : min (n - b) (2 ^ 24) = 2 ^ 24 := min_eq_right hfull
      have hafter : min (n + 1 - b) (2 ^ 24) = 2 ^ 24 := min_eq_right (by omega)
      rw [hbefore, Nat.cast_pow, Nat.cast_ofNat] at hsum
      rw [hafter, Nat.cast_pow, Nat.cast_ofNat]
      rw [← nearest_most_succ_mul_zpow hleast] at htop ⊢
      apply (add_roundsTo hsum.isFinite hlast.isFinite).within_nearest _ htop
      rw [add_one_mul]
      exact (abs_add_le _ _).trans (add_le_add hsum.abs_le hlast.abs_le)
    · have hcount : min (n + 1 - b) (2 ^ 24) = min (n - b) (2 ^ 24) + 1 := by
        omega
      rw [hcount]
      apply hsum.add hlast
      · exact onGrid_natCast_mul_zpow (by omega) hleast
      · have hle : ((min (n - b) (2 ^ 24) + 1 : ℕ) : ℚ) ≤ 2 ^ 24 := by
          have : min (n - b) (2 ^ 24) + 1 ≤ 2 ^ 24 := by omega
          exact_mod_cast this
        exact (mul_le_mul_of_nonneg_right hle (two_zpow_pos a).le).trans_lt htop
      · push_cast
        rw [add_one_mul]

end Sums

/-! ## Energies -/

section Energies

variable {signal : ℕ → Float32} {a : ℤ} {n : ℕ} {c : Cycle}

/-- An energy overflows with the sum of magnitudes that it comes from, and only
then, because no period is shorter than a sample. -/
theorem energy_of_reported (hc : reported signal n = some c) :
    0 ≤ c.energy ∧ ∃ b, CycleBegins (silenced signal) b n ∧
      (c.energy.isFinite = true ↔
        (magnitudeSum (silenced signal) b (n + 1)).isFinite = true) := by
  obtain ⟨-, -, b, hb, henergy⟩ := cycle_of_reported hc
  obtain ⟨hfinite, hone⟩ := period_bounds hc
  have hpos : 0 < exact c.period := zero_lt_one.trans_le hone
  have hle : b ≤ n + 1 := hb.le.trans (Nat.le_succ n)
  refine ⟨?_, b, hb, ?_⟩
  · rw [henergy]
    exact zero_le_div (zero_le_magnitudeSum (isFinite_silenced signal) hle)
      hfinite hpos
  · rw [henergy]
    constructor
    · exact isFinite_of_div
    · intro hsum
      have hgrid := onGrid_abs_exact (magnitudeSum (silenced signal) b (n + 1))
      have hle : |exact (magnitudeSum (silenced signal) b (n + 1))| ≤
          |exact (magnitudeSum (silenced signal) b (n + 1))| * exact c.period :=
        le_mul_of_one_le_right (abs_nonneg _) hone
      exact ((within_self hsum).div hfinite hpos hgrid (abs_exact_lt _)
        hle).isFinite

theorem within_energy_of_reported (hleast : -149 ≤ a) (hmost : a ≤ 103)
    (hsignal : ∀ i < n + 1, Within (2 ^ a) (silenced signal i))
    (hc : reported signal n = some c) : Within (2 ^ (a + 1)) c.energy := by
  obtain ⟨hfalls, hn⟩ := fallsAt_of_reported hc
  obtain ⟨-, -, b, hb, henergy⟩ := cycle_of_reported hc
  obtain ⟨hfinite, hone⟩ := period_bounds hc
  have htwo : 2 ≤ min (n + 1 - b) (2 ^ 24) := by
    have := hb.two_le (isFinite_silenced signal) hfalls hn
    omega
  have hcount := count_le_period hc hb
  have hsum :=
    within_magnitudeSum hleast hmost (hb.le.trans (Nat.le_succ n)) hsignal
  generalize min (n + 1 - b) (2 ^ 24) = m at *
  have htwo' : (2 : ℚ) ≤ m := by exact_mod_cast htwo
  rw [henergy]
  apply hsum.div hfinite (zero_lt_one.trans_le hone)
  · exact onGrid_zpow (by omega)
  · calc (2 : ℚ) ^ (a + 1) ≤ 2 ^ (104 : ℤ) :=
          zpow_le_zpow_right₀ (by norm_num) (by omega)
      _ < 2 ^ 128 := by norm_num
  · rw [zpow_add_one₀ (by norm_num), mul_assoc, mul_comm]
    exact mul_le_mul_of_nonneg_left (by linarith) (two_zpow_pos a).le

theorem zero_le_energy (signal : ℕ → Float32) (n : ℕ) :
    0 ≤ (after signal n).energy := by
  apply holds_of_last_report (P := fun _ energy => 0 ≤ energy)
  · rw [zero_le_iff]
    exact .inl ⟨rfl, exact_zero.ge⟩
  · intro c hc
    obtain ⟨i, -, hc⟩ := mem_reports_iff.mp hc
    exact (energy_of_reported hc).1

theorem within_energy (hleast : -149 ≤ a) (hmost : a ≤ 103)
    (hsignal : ∀ i < n, Within (2 ^ a) (silenced signal i)) :
    Within (2 ^ (a + 1)) (after signal n).energy := by
  apply holds_of_last_report (P := fun _ energy => Within (2 ^ (a + 1)) energy)
  · exact within_zero.mono (two_zpow_pos _).le
  · intro c hc
    obtain ⟨i, hi, hc⟩ := mem_reports_iff.mp hc
    exact within_energy_of_reported hleast hmost (fun j hj =>
      hsignal j (by omega)) hc

end Energies

/-! ## The state -/

theorem isFinite_period (signal : ℕ → Float32) (n : ℕ) :
    (after signal n).period.isFinite = true := by
  apply holds_of_last_report (P := fun period _ => period.isFinite = true)
  · rfl
  · intro c hc
    obtain ⟨i, -, hc⟩ := mem_reports_iff.mp hc
    exact (period_bounds hc).1

theorem isFinite_previous (signal : ℕ → Float32) (n : ℕ) :
    (after signal n).previous.isFinite = true := by
  have htracks := tracks_after signal n
  cases n with
  | zero =>
    rw [htracks.silentBefore rfl]
    rfl
  | succ n =>
    rw [htracks.previous n rfl]
    exact isFinite_silenced signal n

/-- Whatever a signal consists of, the times and the last sample that a meter
knows are finite, and no sum of magnitudes and no energy is negative or no
number at all.  An energy is infinite only if the sum of its magnitudes is, and
neither is if no finite sample is so large that `2 ^ 24` of them leave the range
of a number. -/
theorem stays_finite (signal : ℕ → Float32) (n : ℕ) :
    (after signal n).previous.isFinite = true ∧
      (after signal n).elapsed.isFinite = true ∧
    (after signal n).period.isFinite = true ∧
    0 ≤ (after signal n).gathered ∧ 0 ≤ (after signal n).energy ∧
    (∀ c, reported signal n = some c → c.period.isFinite = true ∧ 0 ≤ c.energy ∧
      ∃ b, CycleBegins (silenced signal) b n ∧
        (c.energy.isFinite = true ↔
          (magnitudeSum (silenced signal) b (n + 1)).isFinite = true)) ∧
    ∀ a : ℤ, -149 ≤ a → a ≤ 103 →
    (∀ i < n, |exact (silenced signal i)| ≤ 2 ^ a) →
      (after signal n).gathered.isFinite = true ∧
      (after signal n).energy.isFinite = true ∧
      ∀ c ∈ reports signal n, c.energy.isFinite = true := by
  have htracks := tracks_after signal n
  obtain ⟨b, hb, hgathered, -⟩ := htracks.begins
  refine ⟨isFinite_previous signal n, htracks.isCount.isFinite,
    isFinite_period signal n, ?_, zero_le_energy signal n, fun c hc =>
      ⟨(period_bounds hc).1, energy_of_reported hc⟩, ?_⟩
  · rw [hgathered]
    exact zero_le_magnitudeSum (isFinite_silenced signal) hb.le
  · intro a hleast hmost hsignal
    have hwithin : ∀ i < n, Within (2 ^ a) (silenced signal i) :=
      fun i hi => ⟨isFinite_silenced signal i, hsignal i hi⟩
    refine ⟨?_, (within_energy hleast hmost hwithin).isFinite, ?_⟩
    · rw [hgathered]
      exact (within_magnitudeSum hleast hmost hb.le hwithin).isFinite
    · intro c hc
      obtain ⟨i, hi, hc⟩ := mem_reports_iff.mp hc
      exact (within_energy_of_reported hleast hmost
        (fun j hj => hwithin j (by omega)) hc).isFinite

/-- Samples of magnitude `2 ^ 103`, each third of them below zero. -/
def forceful (n : ℕ) : Float32 :=
  if n % 3 = 2 then .ofBits 0xf3000000 else .ofBits 0x73000000

theorem forceful_stays_finite :
    (∀ i < 6, |exact (silenced forceful i)| ≤ 2 ^ (103 : ℤ)) ∧
      (reports forceful 6).length = 2 ∧
      ∀ c ∈ reports forceful 6, c.energy.isFinite = true := by
  have hsignal : ∀ i < 6, |exact (silenced forceful i)| ≤ 2 ^ (103 : ℤ) := by
    decide +kernel
  obtain ⟨-, -, -, -, -, -, hbounded⟩ := stays_finite forceful 6
  exact ⟨hsignal, by decide +kernel,
    (hbounded 103 (by norm_num) le_rfl hsignal).2.2⟩

/-- Two samples as large as a number can be, and one below zero. -/
def overloaded (n : ℕ) : Float32 :=
  if n < 2 then .ofBits 0x7f7fffff else -1

theorem overloaded_energy_infinite :
    (∀ n < 3, (overloaded n).isFinite = true) ∧
    (after overloaded 2).gathered.isFinite = false ∧
    (after overloaded 3).energy.isFinite = false ∧
    (reports overloaded 3).map (fun c => c.energy.isFinite) = [false] := by
  decide +kernel

end PitchFollower.PeriodMeter
