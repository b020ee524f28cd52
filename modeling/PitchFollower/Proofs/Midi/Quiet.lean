import Mathlib.Algebra.Order.Floor.Semiring
import PitchFollower.Proofs.Midi.Steady
import PitchFollower.Proofs.Midi.Wire
import PitchFollower.Proofs.Period.Peaks

/-!
# Quiet signals

A signal that stays far enough below the threshold of a gate never gets past it,
whatever its cycles are.
-/

namespace PitchFollower

open Single

/-! ## Means -/

section Means

variable {m : ℕ} {t : ℤ}

/-- Numbers of magnitude at most `m * 2 ^ t`, which leaves room for 4096 of
them. -/
structure IsStep (m : ℕ) (t : ℤ) : Prop where
  few : m ≤ 2 ^ 12
  least : -149 ≤ t
  most : t ≤ 100

theorem IsStep.onGrid (h : IsStep m t) {k : ℕ} (hk : k ≤ 2 ^ 12) :
    OnGrid (k * (m * 2 ^ t)) := by
  have hroom : k * m ≤ 2 ^ 24 := by
    calc k * m ≤ 2 ^ 12 * 2 ^ 12 := Nat.mul_le_mul hk h.few
      _ = 2 ^ 24 := by norm_num
  have hgrid := onGrid_natCast_mul_zpow hroom h.least
  rwa [Nat.cast_mul, mul_assoc] at hgrid

theorem IsStep.lt (h : IsStep m t) {k : ℕ} (hk : k ≤ 2 ^ 12) :
    (k : ℚ) * (m * 2 ^ t) < 2 ^ 128 := by
  have hk' : (k : ℚ) ≤ 2 ^ 12 := by exact_mod_cast hk
  have hm : (m : ℚ) ≤ 2 ^ 12 := by exact_mod_cast h.few
  calc (k : ℚ) * (m * 2 ^ t) ≤ 2 ^ 12 * (2 ^ 12 * 2 ^ (100 : ℤ)) := by
        gcongr
        · norm_num
        · exact h.most
    _ < 2 ^ 128 := by norm_num

theorem IsStep.within_foldl (h : IsStep m t) (xs : List Float32)
    (hxs : ∀ x ∈ xs, Within (m * 2 ^ t) x) {k : ℕ} (hk : k + xs.length ≤ 2 ^ 12)
    {start : Float32} (hstart : Within (k * (m * 2 ^ t)) start) :
    Within ((k + xs.length : ℕ) * (m * 2 ^ t)) (xs.foldl (· + ·) start) := by
  induction xs generalizing k start with
  | nil => exact hstart
  | cons x xs ih =>
    rw [List.length_cons] at hk ⊢
    rw [List.foldl_cons, ← Nat.add_assoc, Nat.add_right_comm]
    refine ih (fun y hy => hxs y (List.mem_cons_of_mem x hy)) (by omega) ?_
    apply hstart.add (hxs x List.mem_cons_self) (h.onGrid (by omega))
      (h.lt (by omega))
    rw [Nat.cast_succ, add_one_mul]

/-- The mean of some numbers is no larger than they are, also after rounding. -/
theorem IsStep.within_meanOf (h : IsStep m t) {size : ℕ}
    {filled : Array Float32} (hpos : 0 < size) (hfilled : filled.size ≤ size)
    (hsize : size ≤ 2 ^ 12) (hxs : ∀ x ∈ filled, Within (m * 2 ^ t) x) :
    Within (m * 2 ^ t) (Midi.LoudnessWindow.meanOf size filled) := by
  have hzero : Within ((0 : ℕ) * (m * 2 ^ t)) (-0) := by
    rw [Nat.cast_zero, zero_mul]
    exact within_zero.neg
  have hsum :=
    h.within_foldl filled.toList (fun x hx =>
      hxs x (Array.mem_toList_iff.mp hx))
    (k := 0) (by simpa using hfilled.trans hsize) hzero
  rw [Array.length_toList, Array.foldl_toList, Nat.zero_add] at hsum
  have hmore : ((filled.size : ℕ) : ℚ) * (m * 2 ^ t) ≤ size * (m * 2 ^ t) := by
    have := two_zpow_pos t
    gcongr
  have hnumerator : Within (size * (m * 2 ^ t))
      (if filled.size < size then Single.sum filled +
        0 else Single.sum filled) := by
    split_ifs
    · exact hsum.add within_zero (h.onGrid hsize) (h.lt hsize)
        (by rwa [add_zero])
    · exact hsum.mono hmore
  have hexact : exact (ofNat size) = size :=
    exact_ofNat (hsize.trans (by norm_num))
  have hone := h.onGrid (k := 1) (by norm_num)
  have hlt := h.lt (k := 1) (by norm_num)
  rw [Nat.cast_one, one_mul] at hone hlt
  apply hnumerator.div (ofNat_finite (hsize.trans_lt (by norm_num))).1 _
    hone hlt
  · rw [hexact, mul_comm]
  · rw [hexact]
    exact_mod_cast hpos

end Means

/-! ## Loudness -/

/-- Rounding up to a whole number of binary places. -/
theorem exists_step {r : ℚ} (hr : 0 ≤ r) (t : ℤ) :
    ∃ m : ℕ, r ≤ m * 2 ^ t ∧ (m : ℚ) * 2 ^ t < r + 2 ^ t := by
  have hpos := two_zpow_pos t
  refine ⟨⌈r / 2 ^ t⌉₊, ?_, ?_⟩
  · rw [← div_le_iff₀ hpos]
    exact Nat.le_ceil _
  · have hlt := Nat.ceil_lt_add_one (div_nonneg hr hpos.le)
    calc (⌈r / 2 ^ t⌉₊ : ℚ) * 2 ^ t < (r / 2 ^ t + 1) * 2 ^ t :=
          mul_lt_mul_of_pos_right hlt hpos
      _ = r + 2 ^ t := by rw [add_one_mul, div_mul_cancel₀ _ hpos.ne']

theorem full_scale : (127 : Float32).isFinite = true ∧ exact 127 = 127 := by
  decide +kernel

/-- Scaling a mean to the range of a MIDI value takes two roundings, for which
an eighth of a unit is enough. -/
theorem within_scaled {mean divisor : Float32} {c : ℚ} {n : ℕ} (hleast : 1 ≤ n)
    (hmost : n ≤ 127) (hmean : Within c mean)
    (hfinite : divisor.isFinite = true) (hpos : 0 < exact divisor)
    (hc : 127 * c ≤ (n - 7 / 8) * exact divisor) :
    Within (n - 3 / 4) (mean / divisor * 127) := by
  have hleast' : (1 : ℚ) ≤ n := by exact_mod_cast hleast
  have hmost' : (n : ℚ) ≤ 127 := by exact_mod_cast hmost
  obtain ⟨k, hle, hlt⟩ :=
    exists_step (r := (n - 7 / 8) / 127) (by linarith) (-12)
  have hk : (k : ℚ) * 2 ^ (-12 : ℤ) < 2 ^ 12 * 2 ^ (-12 : ℤ) :=
    hlt.trans_le (by norm_num; linarith)
  have hfew : k ≤ 2 ^ 12 := by
    exact_mod_cast (lt_of_mul_lt_mul_right hk (by norm_num)).le
  have hgrid :=
    onGrid_natCast_mul_zpow (m := k) (t := -12) (hfew.trans (by norm_num))
      (by norm_num)
  generalize (k : ℚ) * 2 ^ (-12 : ℤ) = ratio at *
  norm_num at hlt
  have hratio : Within ratio (mean / divisor) := by
    apply hmean.div hfinite hpos hgrid (hk.trans (by norm_num))
    calc c ≤ (n - 7 / 8) * exact divisor / 127 := by linarith
      _ = (n - 7 / 8) / 127 * exact divisor := by ring
      _ ≤ ratio * exact divisor := mul_le_mul_of_nonneg_right hle hpos.le
  have hquarters : OnGrid ((n : ℚ) - 3 / 4) := by
    apply onGrid_quarters (n := 4 * n - 3) (by omega)
    rw [Nat.cast_sub (by omega)]
    push_cast
    ring
  apply hratio.mul (b := 127) ⟨full_scale.1,
    by rw [full_scale.2]; norm_num⟩ hquarters
    (by linarith)
  linarith

/-- A mean that stays below the threshold by an eighth of a unit is not rounded
up to it. -/
theorem loudnessOf_lt {mean divisor : Float32} {c : ℚ} {g : UInt8} (hg : 1 ≤ g)
    (hmost : g ≤ 127) (hmean : Within c mean) (hdivisor : IsPositive divisor)
    (hc : 127 * c ≤ (g.toNat - 7 / 8) * exact divisor) :
    Midi.LoudnessWindow.loudnessOf mean divisor < g := by
  have hpos := (pos_iff hdivisor.1).mp hdivisor.2
  rw [UInt8.le_iff_toNat_le] at hg hmost
  change 1 ≤ g.toNat at hg
  change g.toNat ≤ 127 at hmost
  have hscaled := within_scaled hg hmost hmean hdivisor.1 hpos hc
  obtain ⟨i, hi, hfinite, hexact⟩ :=
    Approximate.exists_round_eq hg (hmost.trans (by norm_num)) hscaled
  have hlt : i < g.toNat := (abs_lt.mp hi).2
  have hhigh : ¬ 127 ≤ Approximate.round (mean / divisor * 127) := by
    rw [le_iff full_scale.1 hfinite, full_scale.2, hexact, not_le]
    exact_mod_cast hlt.trans_le (Int.ofNat_le.mpr hmost)
  unfold Midi.LoudnessWindow.loudnessOf
  dsimp only
  rw [if_neg hhigh, UInt8.lt_iff_toNat_lt]
  split_ifs with hpositive
  · have hcut := toNat_toUInt8 hfinite ((pos_iff hfinite).mp hpositive).le
      (by rw [hexact]; exact_mod_cast hlt.trans (Int.ofNat_lt.mpr g.toNat_lt))
    rw [hexact, Int.floor_intCast] at hcut
    omega
  · exact hg

/-! ## Emitters -/

namespace Midi

/-- Means of magnitude at most `m * 2 ^ t` stay below the threshold of a gate,
also after all roundings. -/
structure EmitterSettings.Ceiling (s : EmitterSettings) (m : ℕ) (t : ℤ) :
    Prop where
  step : IsStep m t
  positive : 1 ≤ s.gateThreshold
  threshold : s.gateThreshold ≤ 127
  size : s.windowSize.toNat ≤ 2 ^ 12
  divisor : IsPositive s.divisor
  below : 127 * (m * 2 ^ t) ≤ ((s.gateThreshold.toNat : ℚ) - 7 / 8) *
      exact s.divisor

/-- There is a ceiling that leaves room for the loudest means allowed, in steps
of about a thousandth of the divisor. -/
theorem exists_ceiling {s : EmitterSettings} (hpositive : 1 ≤ s.gateThreshold)
    (hthreshold : s.gateThreshold ≤ 127) (hsize : s.windowSize.toNat ≤ 2 ^ 12)
    (hdivisor : IsPositive s.divisor) (hlow : 2 ^ (-60 : ℤ) ≤ exact s.divisor)
    (hhigh : exact s.divisor ≤ 2 ^ (60 : ℤ)) :
    ∃ m t, s.Ceiling m t ∧
      ((s.gateThreshold.toNat : ℚ) - 1) * exact s.divisor ≤
        127 * (m * 2 ^ t) := by
  have hg1 : (1 : ℚ) ≤ s.gateThreshold.toNat := by
    exact_mod_cast UInt8.le_iff_toNat_le.mp hpositive
  have hg127 : (s.gateThreshold.toNat : ℚ) ≤ 127 := by
    exact_mod_cast UInt8.le_iff_toNat_le.mp hthreshold
  have hpos : 0 < exact s.divisor := (two_zpow_pos _).trans_le hlow
  have hleast : -60 ≤ Int.log 2 (exact s.divisor) :=
    (Int.zpow_le_iff_le_log (b := 2) (by norm_num) hpos).mp
      (by exact_mod_cast hlow)
  have htop : Int.log 2 (exact s.divisor) < 61 :=
    (Int.lt_zpow_iff_log_lt (b := 2) (by norm_num) hpos).mp
      (by exact_mod_cast hhigh.trans_lt (by norm_num))
  have hle : ((2 : ℕ) : ℚ) ^ Int.log 2 (exact s.divisor) ≤ exact s.divisor :=
    Int.zpow_log_le_self (by norm_num) hpos
  have hlt : exact s.divisor <
      ((2 : ℕ) : ℚ) ^ (Int.log 2 (exact s.divisor) + 1) :=
    Int.lt_zpow_succ_log_self (by norm_num) _
  obtain ⟨t, ht⟩ : ∃ t, Int.log 2 (exact s.divisor) = 10 + t :=
    ⟨Int.log 2 (exact s.divisor) - 10, by ring⟩
  rw [ht, Nat.cast_ofNat, zpow_add₀ (by norm_num)] at hle
  rw [ht, add_right_comm, Nat.cast_ofNat, zpow_add₀ (by norm_num)] at hlt
  norm_num at hle hlt
  have htpos := two_zpow_pos t
  have hmost := mul_le_mul_of_nonneg_right hg127 hpos.le
  obtain ⟨m, hm, hm'⟩ :=
    exists_step (r := (s.gateThreshold.toNat - 1) * exact s.divisor / 127)
    (div_nonneg (mul_nonneg (by linarith) hpos.le) (by norm_num)) t
  refine ⟨m, t,
    ⟨⟨?_, by omega, by omega⟩, hpositive, hthreshold, hsize, hdivisor,
      by linarith⟩, by linarith⟩
  have hroom : (m : ℚ) * 2 ^ t < 2 ^ 12 * 2 ^ t := by linarith
  exact_mod_cast (lt_of_mul_lt_mul_right hroom htpos.le).le

theorem LoudnessWindow.within_update {w : LoudnessWindow} {c : ℚ}
    {energy : Float32} (h : ∀ x ∈ w.filled, Within c x)
    (henergy : Within c energy) :
    ∀ x ∈ (w.update energy).filled, Within c x := by
  intro x hx
  obtain ⟨j, hj⟩ := Array.mem_iff_getElem?.mp hx
  rw [getElem?_update_filled] at hj
  split_ifs at hj
  · rw [← Option.some_inj.mp hj, finiteOrZero, if_pos henergy.isFinite]
    exact henergy
  · exact h x (Array.mem_of_getElem? hj)

/-- An emitter that has heard nothing but quiet cycles, and has not started a
note. -/
structure Emitter.Quiet (s : EmitterSettings) (c : ℚ) (e : Emitter) : Prop where
  size : e.window.size = s.windowSize.toNat
  divisor : e.window.divisor = s.divisor
  threshold : e.gate.threshold = s.gateThreshold
  sounding : e.gate.sounding = none
  energies : ∀ x ∈ e.window.filled, Within c x

section Emitters

variable {s : EmitterSettings} {e : Emitter}

theorem quiet_of_ofSettings {quantizer : Quantizer}
    (h : Emitter.ofSettings quantizer s = .ok e) (monitor : Option Monitor)
    (c : ℚ) : ({ e with monitor } : Emitter).Quiet s c := by
  obtain ⟨-, window, hwindow, rfl⟩ := ofSettings_eq h
  obtain ⟨-, _, rfl⟩ := LoudnessWindow.eq_silent_of_ofOptions hwindow
  refine ⟨rfl, rfl, rfl, rfl, fun x hx => ?_⟩
  change x ∈ #[] at hx
  cases Array.not_mem_empty x hx

/-- A gate that is silent and hears nothing loud enough stays so, and asks for
no note. -/
theorem NoteGate.onCycle_of_quiet {g : NoteGate} (note : Option UInt8)
    {loudness : UInt8} (hsounding : g.sounding = none)
    (hquiet : loudness < g.threshold) :
    (g.onCycle note loudness).1.sounding = none ∧
      (g.onCycle note loudness).2 = ⟨g.news loudness, none, none⟩ := by
  have hnone : g.audibleNote? note loudness = none :=
    if_neg (UInt8.not_le.mpr hquiet)
  rw [onCycle_of_kept (by simp [hnone])]
  exact ⟨hsounding, rfl⟩

section Cycles

variable {m : ℕ} {t : ℤ}

theorem Emitter.Quiet.loudness_lt (h : e.Quiet s (m * 2 ^ t))
    (hs : s.Ceiling m t) {energy : Float32}
    (henergy : Within (m * 2 ^ t) energy) :
    (e.window.update energy).loudness < s.gateThreshold := by
  have hfilled := (e.window.update energy).filled_le
  rw [e.window.update_size] at hfilled
  rw [LoudnessWindow.update_loudness, h.divisor]
  refine loudnessOf_lt hs.positive hs.threshold ?_ hs.divisor hs.below
  exact hs.step.within_meanOf (Nat.zero_lt_of_lt e.window.cursor_lt) hfilled
    (h.size ▸ hs.size)
    (LoudnessWindow.within_update h.energies henergy)

/-- A quiet cycle is answered with a change of the loudness at most. -/
theorem Emitter.Quiet.onCycle (h : e.Quiet s (m * 2 ^ t)) (hs : s.Ceiling m t)
    {cycle : Cycle} (henergy : Within (m * 2 ^ t) cycle.energy) :
    (e.onCycle cycle).1.Quiet s (m * 2 ^ t) ∧
      ∀ event ∈ (e.onCycle cycle).2, event.isNote = false := by
  have hloudness := h.loudness_lt hs henergy
  rw [← h.threshold] at hloudness
  obtain ⟨hsilent, hasked⟩ := NoteGate.onCycle_of_quiet
    ((e.quantizer.note? cycle.period).bind e.transposed?) h.sounding hloudness
  refine ⟨⟨?_, ?_, ?_, hsilent,
    LoudnessWindow.within_update h.energies henergy⟩, ?_⟩
  · exact (e.window.update_size _).trans h.size
  · exact (e.window.update_divisor _).trans h.divisor
  · exact (e.gate.onCycle_threshold _ _).trans h.threshold
  · have hfilter : (e.onCycle cycle).2.filter Event.isNote = [] := by
      rw [onCycle_snd, filter_messages, hasked]
      rfl
    intro event hevent
    exact Bool.eq_false_iff.mpr (List.filter_eq_nil_iff.mp hfilter event hevent)

end Cycles

end Emitters

/-! ## Signals -/

section Signals

variable {σ ε : Type} [Outlet σ ε] {s : EmitterSettings} {m : ℕ} {t : ℤ}
variable {signal : ℕ → Float32}

theorem quiet_afterHearing (player : Transmitter (Witnessed σ))
    (hs : s.Ceiling m t) (hfresh : player.emitter.Quiet s (m * 2 ^ t))
    (hnone : player.outlet.offered = []) {n : ℕ}
    (hcycles : ∀ i < n, ∀ c ∈ PeriodMeter.reported signal i,
      Within (m * 2 ^ t) c.energy) :
    ((Detector.start player).afterHearing signal n).player.emitter.Quiet s
      (m * 2 ^ t) ∧
      ∀ event ∈
        ((Detector.start player).afterHearing signal n).player.outlet.offered,
        event.isNote = false := by
  induction n with
  | zero =>
    refine ⟨hfresh, fun event hevent => ?_⟩
    change event ∈ player.outlet.offered at hevent
    rw [hnone] at hevent
    cases hevent
  | succ n ih =>
    obtain ⟨hquiet, hnotes⟩ :=
      ih fun i hi => hcycles i (hi.trans (Nat.lt_succ_self n))
    cases hcycle : (Detector.start player).closes signal n with
    | none =>
      rw [player_of_closes_none hcycle]
      exact ⟨hquiet, hnotes⟩
    | some c =>
      rw [player_of_closes_some hcycle, Transmitter.offered_onCycle]
      rw [Detector.closes_start] at hcycle
      obtain ⟨hstill, hevents⟩ :=
        hquiet.onCycle hs (hcycles n (Nat.lt_succ_self n) c hcycle)
      refine ⟨hstill, fun event hevent => ?_⟩
      rcases List.mem_append.mp hevent with hbefore | hnow
      · exact hnotes event hbefore
      · exact hevents event hnow

/-- A signal whose finite samples are quiet enough for the threshold never
starts or ends a note, whatever its waveform is: the energy of a cycle is at
most twice the largest magnitude, so a mean energy that would reach the
threshold of the gate is out of reach. -/
theorem quiet_signal_starts_no_note {quantizer : Quantizer}
    {settings : EmitterSettings} {e : Emitter}
    (h : Emitter.ofSettings quantizer settings = .ok e)
    (monitor : Option Monitor) (outlet : σ) (hgate : 1 ≤ settings.gateThreshold)
    (hsize : settings.windowSize ≤ 4096)
    (hlow : 2 ^ (-60 : ℤ) ≤ exact settings.divisor)
    (hhigh : exact settings.divisor ≤ 2 ^ (60 : ℤ)) {most : ℚ}
    (hmost : 0 ≤ most)
    (hquiet : 254 * most ≤ (settings.gateThreshold.toNat - 1) *
      exact settings.divisor)
    {n : ℕ} (hn : n < 2 ^ 24)
    (hsignal : ∀ i < n, (signal i).isFinite = true →
      |exact (signal i)| ≤ most) :
    let d := (Detector.start (⟨{ e with monitor }, ⟨outlet, []⟩⟩ :
      Transmitter (Witnessed σ))).afterHearing signal n
    (∀ event ∈ d.player.outlet.offered, event.isNote = false) ∧
      d.player.emitter.release.2 = [] := by
  obtain ⟨hfault, window, hwindow, -⟩ := ofSettings_eq h
  obtain ⟨hdivisor, -⟩ := LoudnessWindow.eq_silent_of_ofOptions hwindow
  have hthreshold := (EmitterSettings.accepted_of_fault? hfault).threshold
  obtain ⟨m, t, hceiling, hroom⟩ := exists_ceiling hgate hthreshold
    (UInt64.le_iff_toNat_le.mp hsize) hdivisor hlow hhigh
  have hsilenced : ∀ i < n, Within most (silenced signal i) := by
    intro i hi
    unfold silenced finiteOrZero
    split_ifs with hfinite
    · exact ⟨hfinite, hsignal i hi hfinite⟩
    · exact within_zero.mono hmost
  have hfew : 2 ^ 25 * most < 2 ^ 128 := by
    have hg127 : (settings.gateThreshold.toNat : ℚ) ≤ 127 := by
      exact_mod_cast UInt8.le_iff_toNat_le.mp hthreshold
    have hproduct : ((settings.gateThreshold.toNat : ℚ) - 1) *
      exact settings.divisor ≤
        126 * 2 ^ (60 : ℤ) :=
      mul_le_mul (by linarith) hhigh ((two_zpow_pos _).le.trans hlow)
        (by norm_num)
    norm_num at hproduct ⊢
    linarith
  have hcycles : ∀ i < n, ∀ c ∈ PeriodMeter.reported signal i,
      Within (m * 2 ^ t) c.energy := by
    intro i hi c hc
    have henergy := PeriodMeter.within_energy_of_few (lt_of_le_of_lt hi hn) hfew
      (fun j hj => hsilenced j (lt_of_lt_of_le hj hi)) hc
    exact henergy.mono (by linarith)
  obtain ⟨hstill, hnotes⟩ := quiet_afterHearing
    (⟨{ e with monitor }, ⟨outlet, []⟩⟩ : Transmitter (Witnessed σ)) hceiling
    (quiet_of_ofSettings h monitor _) rfl hcycles
  refine ⟨hnotes, ?_⟩
  rw [Emitter.release, NoteGate.release, hstill.sounding]
  rfl

/-- A murmur of both signs, with samples that are no numbers in between. -/
def murmur (n : ℕ) : Float32 :=
  if n % 4 = 2 then 0 / 0 else if n % 2 = 0 then 0.3 else -0.3

/-- The loudest signal that the standard settings are promised to pass over has
a magnitude of `39 / 127`.  Its loudness is reported nevertheless. -/
theorem murmur_starts_no_note :
    ∃ e,
      Emitter.ofSettings ⟨48000, .whistle, isPositive_rate⟩ .standard = .ok e ∧
      254 * (39 / 127 : ℚ) ≤
        (EmitterSettings.standard.gateThreshold.toNat - 1) *
          exact EmitterSettings.standard.divisor ∧
      (∀ i < 6, (murmur i).isFinite = true → |exact (murmur i)| ≤ 39 / 127) ∧
      let d :=
        (Detector.start (⟨{ e with monitor := none }, ⟨EventLog.empty, []⟩⟩ :
        Transmitter (Witnessed EventLog))).afterHearing murmur 6
      d.player.outlet.offered ≠ [] ∧
        (∀ event ∈ d.player.outlet.offered, event.isNote = false) ∧
        d.player.emitter.release.2 = [] := by
  have he := ofSettings_eq_ok ⟨48000, .whistle, isPositive_rate⟩
    (show EmitterSettings.standard.fault? = none by decide +kernel) (by decide)
      (by decide)
  have hquiet : 254 * (39 / 127 : ℚ) ≤
    (EmitterSettings.standard.gateThreshold.toNat - 1) *
      exact EmitterSettings.standard.divisor := by
    decide +kernel
  have hsignal : ∀ i < 6, (murmur i).isFinite = true →
      |exact (murmur i)| ≤ 39 / 127 := by
    decide +kernel
  exact ⟨_, he, hquiet, hsignal, by decide +kernel,
    quiet_signal_starts_no_note he none EventLog.empty (by decide) (by decide)
      (by decide +kernel)
      (by decide +kernel) (by norm_num) hquiet (by norm_num) hsignal⟩

end Signals

end Midi

end PitchFollower
