import Mathlib.Logic.Function.Iterate
import PitchFollower.Proofs.Midi.Windows
import PitchFollower.Proofs.Period.Periodic

/-!
# Steady signals

A signal that repeats itself closes the same cycle again and again.  An emitter
that hears one cycle as often as its window has slots has forgotten everything
else, and has nothing more to say: the loudness stays where it is, and so does
the note.
-/

namespace PitchFollower

namespace Midi

open Single

/-! ## Windows -/

namespace LoudnessWindow

variable (w : LoudnessWindow) (energy : Float32)

/-- The window after the same energy for several times. -/
def repeated (times : ℕ) : LoudnessWindow :=
  (fun w => w.update energy)^[times] w

theorem repeated_succ (k : ℕ) :
    w.repeated energy (k + 1) = (w.repeated energy k).update energy :=
  Function.iterate_succ_apply' _ k w

theorem repeated_eq_heard (k : ℕ) :
    w.repeated energy k = w.heard (List.replicate k energy) := by
  induction k with
  | zero => rfl
  | succ k ih => rw [repeated_succ, ih, ← heard_concat, ← List.replicate_succ']

/-- As many energies as there are slots fill the window. -/
theorem repeated_filled {k : ℕ} (hk : w.size ≤ k) :
    (w.repeated energy k).filled =
      Array.replicate w.size (finiteOrZero energy) := by
  have hsuffix : List.replicate w.size energy <:+ List.replicate k energy :=
    ⟨List.replicate (k - w.size) energy,
      by rw [← List.replicate_add, Nat.sub_add_cancel hk]⟩
  have hring := w.rotate_filled _ hsuffix List.length_replicate
  rw [List.map_replicate, List.rotate_eq_iff, List.rotate_replicate,
    ← repeated_eq_heard] at hring
  rw [← Array.toList_inj, hring, Array.toList_replicate]

theorem repeated_loudness {k : ℕ} (hk : w.size ≤ k) :
    (w.repeated energy k).loudness =
      loudnessOf (meanOf w.size (Array.replicate w.size (finiteOrZero energy)))
        w.divisor := by
  have hne : List.replicate k energy ≠ [] := by
    rw [Ne, List.replicate_eq_nil_iff]
    have := w.cursor_lt
    omega
  rw [← w.repeated_filled energy hk, repeated_eq_heard, w.heard_loudness _ hne,
    mean, heard_size]

end LoudnessWindow

/-! ## Emitters -/

/-- The same cycle once more asks for nothing. -/
theorem NoteGate.onCycle_onCycle (g : NoteGate) (note : Option UInt8)
    (loudness : UInt8) :
    (g.onCycle note loudness).1.onCycle note loudness =
      ((g.onCycle note loudness).1, ⟨none, none, none⟩) := by
  have hsounding := g.onCycle_sounding note loudness
  have hthreshold := g.onCycle_threshold note loudness
  have hlast := g.onCycle_lastLoudness note loudness
  generalize (g.onCycle note loudness).1 = after at hsounding hthreshold hlast ⊢
  rw [onCycle_of_kept]
  · rw [news, if_pos hlast, ← hlast]
  · intro audible haudible
    rw [NoteGate.audibleNote?, hthreshold] at haudible
    change audible ∈ g.audibleNote? note loudness at haudible
    rw [hsounding, Option.mem_def.mp haudible]
    rfl

namespace Emitter

theorem onCycle_onCycle_snd {e : Emitter} {c : Cycle}
    (h : ((e.window.update c.energy).update c.energy).loudness =
      (e.window.update c.energy).loudness) :
    ((e.onCycle c).1.onCycle c).2 = [] := by
  have hasked := congrArg Prod.snd (e.gate.onCycle_onCycle
    ((e.quantizer.note? c.period).bind e.transposed?)
      (e.window.update c.energy).loudness)
  simp only [onCycle, publish]
  rw [h]
  exact congrArg (messages _ _) hasked

/-- The emitter after the same cycle for several times. -/
def repeated (e : Emitter) (c : Cycle) (times : ℕ) : Emitter :=
  (fun e => (e.onCycle c).1)^[times] e

theorem repeated_succ (e : Emitter) (c : Cycle) (k : ℕ) :
    e.repeated c (k + 1) = ((e.repeated c k).onCycle c).1 :=
  Function.iterate_succ_apply' _ k e

theorem repeated_window (e : Emitter) (c : Cycle) (k : ℕ) :
    (e.repeated c k).window = e.window.repeated c.energy k := by
  induction k with
  | zero => rfl
  | succ k ih =>
    rw [repeated_succ, LoudnessWindow.repeated_succ, ← ih]
    rfl

/-- A window full of the same cycle has nothing more to say about it. -/
theorem repeated_onCycle_snd (e : Emitter) (c : Cycle) {k : ℕ}
    (hk : e.window.size ≤ k) : ((e.repeated c k).onCycle c).2 = [] := by
  obtain ⟨j, rfl⟩ : ∃ j, k = j + 1 :=
    ⟨k - 1, by have := e.window.cursor_lt; omega⟩
  rw [repeated_succ]
  apply onCycle_onCycle_snd
  rw [repeated_window, ← LoudnessWindow.repeated_succ,
    ← LoudnessWindow.repeated_succ, LoudnessWindow.repeated_loudness _ _ hk,
    LoudnessWindow.repeated_loudness _ _ (hk.trans (Nat.le_succ _))]

end Emitter

/-! ## Reachable states -/

section Reached

variable {σ ε : Type} [Outlet σ ε]

/-- The states of a detector in front of an emitter with checked settings: it
may hear samples and be reset, cycles and releases may be asked of the emitter
directly, and the outlet may be changed from outside, in any order. -/
inductive Reached (settings : EmitterSettings) : Detector (Transmitter σ) → Prop
  | start {quantizer : Quantizer} {e : Emitter}
      (h : Emitter.ofSettings quantizer settings = .ok e)
        (monitor : Option Monitor) (outlet : σ) :
      Reached settings (.start ⟨{ e with monitor }, outlet⟩)
  | hear {d : Detector (Transmitter σ)} (h : Reached settings d)
      (sample : Float32) :
      Reached settings (d.hear sample).1
  | reset {d : Detector (Transmitter σ)} (h : Reached settings d) :
      Reached settings d.reset
  | call {d : Detector (Transmitter σ)} (h : Reached settings d) (call : Call) :
      Reached settings { d with player := (d.player.answer call).1 }
  | exchange {d : Detector (Transmitter σ)} (h : Reached settings d)
      (outlet : σ) :
      Reached settings { d with player := { d.player with outlet } }

variable {settings : EmitterSettings} {d : Detector (Transmitter σ)}

theorem Reached.afterHearing (h : Reached settings d) (signal : ℕ → Float32)
    (n : ℕ) : Reached settings (d.afterHearing signal n) := by
  induction n with
  | zero => exact h
  | succ n ih => exact ih.hear (signal n)

theorem ofSettings_window_size {quantizer : Quantizer} {e : Emitter}
    (h : Emitter.ofSettings quantizer settings = .ok e) :
    e.window.size = settings.windowSize.toNat := by
  obtain ⟨-, window, hwindow, rfl⟩ := ofSettings_eq h
  obtain ⟨-, _, rfl⟩ := LoudnessWindow.eq_silent_of_ofOptions hwindow
  rfl

theorem answer_window_size (e : Emitter) (call : Call) :
    (e.answer call).1.window.size = e.window.size := by
  cases call with
  | cycle cycle => exact e.window.update_size cycle.energy
  | release => rfl

theorem Reached.window_size (h : Reached settings d) :
    d.player.emitter.window.size = settings.windowSize.toNat := by
  induction h with
  | start h => exact (ofSettings_window_size h :)
  | @hear d h sample ih =>
    cases hcycle : (d.meter.hear sample).2 with
    | none =>
      have hplayer : (d.hear sample).1.player = d.player := by
        change (Player.play d.player (d.meter.hear sample).1
          (d.meter.hear sample).2).1 = _
        rw [hcycle]
        rfl
      rw [hplayer, ih]
    | some c =>
      have hplayer : (d.hear sample).1.player = (d.player.onCycle c).1 := by
        change (Player.play d.player (d.meter.hear sample).1
          (d.meter.hear sample).2).1 = _
        rw [hcycle]
        rfl
      rw [hplayer, ← ih]
      exact answer_window_size d.player.emitter (.cycle c)
  | reset h ih => exact ih
  | @call d h call ih =>
    rw [d.player.answer_eq_deliver, ← ih]
    exact answer_window_size d.player.emitter call
  | exchange h outlet ih => exact ih

end Reached

/-! ## Steady signals -/

section Steady

variable {σ ε : Type} [Outlet σ ε] {signal : ℕ → Float32}
  {d : Detector (Transmitter (Witnessed σ))} {n : ℕ}

theorem player_of_closes_none (h : d.closes signal n = none) :
    (d.afterHearing signal (n + 1)).player =
      (d.afterHearing signal n).player := by
  rw [d.player_afterHearing_succ, h]
  rfl

theorem player_of_closes_some {c : Cycle} (h : d.closes signal n = some c) :
    (d.afterHearing signal (n + 1)).player =
      ((d.afterHearing signal n).player.onCycle c).1 := by
  rw [d.player_afterHearing_succ, h]
  rfl

/-- If all cycles from the sample `k` on are the same, the emitter has heard
this one cycle as often as one was closed. -/
theorem emitter_afterHearing_add {c : Cycle} {k : ℕ}
    (h : ∀ i, k ≤ i → ∀ c' ∈ d.closes signal i, c' = c) (m : ℕ) :
    (d.afterHearing signal (k + m)).player.emitter =
      (d.afterHearing signal k).player.emitter.repeated c
        (Nat.count (fun i => (d.closes signal (k + i)).isSome) m) := by
  induction m with
  | zero => rfl
  | succ m ih =>
    rw [Nat.count_succ, ← add_assoc]
    cases hcycle : d.closes signal (k + m) with
    | none =>
      rw [player_of_closes_none hcycle, ih]
      rfl
    | some c' =>
      obtain rfl := h (k + m) (Nat.le_add_right k m) c' hcycle
      rw [player_of_closes_some hcycle]
      change ((d.afterHearing signal (k + m)).player.emitter.onCycle c').1 = _
      rw [ih, ← Emitter.repeated_succ]
      rfl

/-- A predicate that holds once in every block of `T` numbers holds at least as
often as there are blocks. -/
theorem le_count_mul {p : ℕ → Prop} [DecidablePred p] {T : ℕ}
    (h : ∀ j, ∃ r < T, p (j * T + r)) (N : ℕ) : N ≤ Nat.count p (N * T) := by
  induction N with
  | zero => exact Nat.zero_le _
  | succ N ih =>
    obtain ⟨r, hr, hp⟩ := h N
    calc N + 1 ≤ Nat.count p (N * T) + 1 := Nat.succ_le_succ ih
      _ ≤ Nat.count p (N * T + r) + 1 :=
        Nat.succ_le_succ (Nat.count_monotone p (Nat.le_add_right _ _))
      _ ≤ Nat.count p ((N + 1) * T) := by
        rw [add_one_mul]
        exact Nat.count_strict_mono hp (Nat.add_lt_add_left hr _)

/-- A detector in any state that hears a periodic signal with one crossing a
period reports, from the third period on, one and the same cycle at each
crossing, and as many periods later as the window has slots the emitter sends
nothing any more, whatever the cycle is. -/
theorem steady_signal_goes_quiet {settings : EmitterSettings}
    (hd : Reached settings d) {T : ℕ}
    (hsignal : PeriodMeter.CrossesOnce signal T) :
    (∃ c : Cycle, ∀ n, 2 * T ≤ n →
      (FallsAt signal n → d.closes signal n = some c) ∧
      (¬ FallsAt signal n → d.closes signal n = none)) ∧
    ∀ n, (settings.windowSize.toNat + 2) * T ≤ n →
      (d.afterHearing signal (n + 1)).player.outlet.offered =
        (d.afterHearing signal n).player.outlet.offered := by
  obtain ⟨c, hc⟩ := hsignal.exists_closes_eq d.meter
  simp only [← Detector.closes_eq] at hc
  refine ⟨⟨c, hc⟩, fun n hn => ?_⟩
  have hsame : ∀ i, 2 * T ≤ i → ∀ c' ∈ d.closes signal i, c' = c := by
    intro i hi c' hc'
    by_cases hfalls : FallsAt signal i
    · exact Option.some_inj.mp (hc'.symm.trans ((hc i hi).1 hfalls))
    · rw [(hc i hi).2 hfalls] at hc'
      contradiction
  have honce : ∀ j, ∃ r <
      T, (d.closes signal (2 * T + (j * T + r))).isSome = true := by
    intro j
    obtain ⟨r, hr, -⟩ := hsignal.once
    have hfalls : FallsAt signal (2 * T + (j * T + r)) := by
      have hindex : 2 * T + (j * T + r) = (j + 1 + 1) * T + r := by ring
      rw [hindex]
      exact (hsignal.fallsAt_iff hr (j + 1) hr.1).mpr rfl
    exact ⟨r, hr.1, by rw [(hc _ (Nat.le_add_right _ _)).1 hfalls]; rfl⟩
  obtain ⟨m, rfl⟩ : ∃ m, n = 2 * T + m :=
    ⟨n - 2 * T, by rw [add_mul] at hn; omega⟩
  rw [add_comm, add_mul, Nat.add_le_add_iff_left] at hn
  cases hcycle : d.closes signal (2 * T + m) with
  | none => rw [player_of_closes_none hcycle]
  | some c' =>
    obtain rfl := hsame _ (Nat.le_add_right _ _) c' hcycle
    have hcount :=
      (le_count_mul (p := fun i => (d.closes signal (2 * T + i)).isSome = true)
      honce settings.windowSize.toNat).trans (Nat.count_monotone _ hn)
    have hsilent :
        ((d.afterHearing signal (2 * T + m)).player.emitter.onCycle c').2 =
          [] := by
      rw [emitter_afterHearing_add hsame]
      apply Emitter.repeated_onCycle_snd
      rwa [(hd.afterHearing signal (2 * T)).window_size]
    rw [player_of_closes_some hcycle, Transmitter.offered_onCycle, hsilent,
      List.append_nil]

end Steady

theorem crossesOnce_alternating : PeriodMeter.CrossesOnce alternating 2 where
  periodic n := by rw [alternating, Nat.add_mod_right, alternating]
  isFinite n := by
    unfold alternating
    split_ifs <;> rfl
  once := by
    have hfalls : FallsAt alternating 3 :=
      ⟨by decide +kernel,
        (risenBefore_succ_of_nonzero (n := 2) (by decide +kernel)).mpr
          (by decide +kernel)⟩
    refine ⟨1, ⟨by decide, hfalls⟩, ?_⟩
    rintro r ⟨hr, hfalls'⟩
    by_contra hne
    obtain rfl : r = 0 := by omega
    have hnot : ¬ alternating 2 < 0 := by decide +kernel
    exact hnot hfalls'.1

theorem alternating_goes_quiet :
    ∃ d : Detector (Transmitter (Witnessed EventLog)),
      Reached .standard d ∧ PeriodMeter.CrossesOnce alternating 2 ∧
      (∃ c : Cycle, ∀ n, 2 * 2 ≤ n →
        (FallsAt alternating n → d.closes alternating n = some c) ∧
        (¬ FallsAt alternating n → d.closes alternating n = none)) ∧
      ∀ n, (EmitterSettings.standard.windowSize.toNat + 2) * 2 ≤ n →
        (d.afterHearing alternating (n + 1)).player.outlet.offered =
          (d.afterHearing alternating n).player.outlet.offered := by
  have he := ofSettings_eq_ok ⟨48000, .whistle, by decide +kernel⟩
    (show EmitterSettings.standard.fault? = none by decide +kernel) (by decide)
      (by decide)
  have hd : Reached .standard _ :=
    .start he none (⟨EventLog.empty, []⟩ : Witnessed EventLog)
  exact ⟨_, hd, crossesOnce_alternating,
    steady_signal_goes_quiet hd crossesOnce_alternating⟩

end Midi

end PitchFollower
