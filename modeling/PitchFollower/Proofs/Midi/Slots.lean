import Mathlib.Data.List.Rotate
import Mathlib.Data.Nat.ModEq
import Mathlib.Order.Bounds.Defs
import PitchFollower.Proofs.Midi.Notes
import PitchFollower.Proofs.Single.Sums

/-!
# What the slots hold

The energies that a window hears go round the ring, from the first slot on.  So
a slot holds the latest energy whose number it has come round to, and zero if
there is none, and the whole ring holds each of the latest energies once and
nothing older.  The window keeps only the slots that have been filled, but its
mean is that of the whole ring.
-/

namespace PitchFollower.Midi.LoudnessWindow

open Single

/-! ## Energies in slots -/

section Slots

variable (w : LoudnessWindow) (energy : Float32)

theorem exists_update_eq_store :
    ∃ filled filled_le cursor_lt, w.update energy =
      update.store w filled filled_le cursor_lt ∧
      ∀ j, filled[j]? = if j =
        w.cursor then some (finiteOrZero energy) else w.filled[j]? := by
  by_cases hold : w.cursor < w.filled.size
  · refine ⟨w.filled.set w.cursor (finiteOrZero energy) hold, _, _,
      dif_pos hold, fun j => ?_⟩
    rw [Array.getElem?_set]
    simp only [eq_comm]
  · have hcursor : w.cursor = w.filled.size :=
      le_antisymm w.cursor_le (not_lt.mp hold)
    refine ⟨w.filled.push (finiteOrZero energy), _, _, dif_neg hold,
      fun j => ?_⟩
    rw [Array.getElem?_push, hcursor]

theorem update_size : (w.update energy).size = w.size := by
  obtain ⟨_, _, _, heq, -⟩ := w.exists_update_eq_store energy
  rw [heq, update.store]

theorem update_divisor : (w.update energy).divisor = w.divisor := by
  obtain ⟨_, _, _, heq, -⟩ := w.exists_update_eq_store energy
  rw [heq, update.store]

theorem update_cursor : (w.update energy).cursor = (w.cursor + 1) % w.size := by
  obtain ⟨_, _, _, heq, -⟩ := w.exists_update_eq_store energy
  rw [heq, update.store]

theorem update_loudness :
    (w.update energy).loudness =
      loudnessOf (meanOf w.size (w.update energy).filled) w.divisor := by
  obtain ⟨_, _, _, heq, -⟩ := w.exists_update_eq_store energy
  rw [heq, update.store]

theorem getElem?_update_filled (j : ℕ) :
    (w.update energy).filled[j]? =
      if j = w.cursor then some (finiteOrZero energy) else w.filled[j]? := by
  obtain ⟨_, _, _, heq, hslots⟩ := w.exists_update_eq_store energy
  rw [heq, update.store]
  exact hslots j

end Slots

/-! ## The whole ring -/

section Ring

variable (w : LoudnessWindow) (energy : Float32)

/-- The energies in all slots, with the zeros in those that have not been
filled. -/
def ring : List Float32 :=
  w.filled.toList ++ List.replicate (w.size - w.filled.size) 0

theorem length_ring : w.ring.length = w.size := by
  have := w.filled_le
  rw [ring, List.length_append, List.length_replicate, Array.length_toList]
  omega

theorem ring_of_full (h : w.filled.size = w.size) :
    w.ring = w.filled.toList := by
  rw [ring, h, Nat.sub_self, List.replicate_zero, List.append_nil]

theorem ring_silent {size : ℕ} (hpos : 0 < size) (divisor : Float32) :
    (silent size hpos divisor).ring = List.replicate size 0 :=
  rfl

theorem getElem?_ring {j : ℕ} (hj : j < w.size) :
    w.ring[j]? = some (w.filled[j]?.getD 0) := by
  rw [ring]
  rcases Nat.lt_or_ge j w.filled.size with hfilled | hbehind
  · rw [List.getElem?_append_left (by rwa [Array.length_toList]),
      Array.getElem?_toList, Array.getElem?_eq_getElem hfilled,
      Option.getD_some]
  · rw [List.getElem?_append_right (by rwa [Array.length_toList]),
      Array.length_toList, List.getElem?_replicate, if_pos (by omega),
      Array.getElem?_eq_none hbehind, Option.getD_none]

/-- An energy replaces the one in the slot at the cursor. -/
theorem ring_update :
    (w.update energy).ring = w.ring.set w.cursor (finiteOrZero energy) := by
  apply List.ext_getElem?
  intro j
  rcases Nat.lt_or_ge j w.size with hj | hj
  · rw [getElem?_ring _ (by rwa [update_size]), getElem?_update_filled,
      List.getElem?_set, length_ring, getElem?_ring _ hj]
    by_cases hcursor : j = w.cursor
    · rw [if_pos hcursor, if_pos hcursor.symm, if_pos w.cursor_lt,
        Option.getD_some]
    · rw [if_neg hcursor, if_neg (Ne.symm hcursor)]
  · rw [List.getElem?_eq_none (by rwa [length_ring, update_size]),
      List.getElem?_eq_none (by rwa [List.length_set, length_ring])]

/-- The zeros in the slots behind count as much as a single one. -/
theorem mean_eq_sum_ring : w.mean = sum w.ring.toArray / ofNat w.size := by
  have hsum : sum w.ring.toArray =
      (List.replicate (w.size - w.filled.size) 0).foldl (· + ·)
        (sum w.filled) := by
    have hfilled : w.filled.toList.foldl (· + ·) (-0) = sum w.filled :=
      Array.foldl_toList ..
    rw [← hfilled, ← List.foldl_append, ← ring]
    exact (Array.foldl_toList ..).symm
  rw [mean, meanOf, hsum]
  split_ifs with hbehind
  · obtain ⟨k, hk⟩ := Nat.exists_eq_add_of_lt hbehind
    have hcount : w.size - w.filled.size = k + 1 := by omega
    rw [hcount, foldl_add_zeros]
  · rw [Nat.sub_eq_zero_of_le (not_lt.mp hbehind), List.replicate_zero,
      List.foldl_nil]

end Ring

/-! ## Runs -/

section Runs

variable (w : LoudnessWindow) (xs : List Float32)

/-- The window after some more energies. -/
def heard (energies : List Float32) : LoudnessWindow :=
  energies.foldl update w

theorem heard_concat (x : Float32) :
    w.heard (xs ++ [x]) = (w.heard xs).update x :=
  List.foldl_concat ..

theorem heard_size : (w.heard xs).size = w.size := by
  induction xs using List.reverseRecOn with
  | nil => rfl
  | append_singleton xs x ih => rw [heard_concat, update_size, ih]

theorem heard_divisor : (w.heard xs).divisor = w.divisor := by
  induction xs using List.reverseRecOn with
  | nil => rfl
  | append_singleton xs x ih => rw [heard_concat, update_divisor, ih]

theorem heard_cursor :
    (w.heard xs).cursor = (w.cursor + xs.length) % w.size := by
  induction xs using List.reverseRecOn with
  | nil => exact (Nat.mod_eq_of_lt w.cursor_lt).symm
  | append_singleton xs x ih =>
    rw [heard_concat, update_cursor, heard_size, ih, Nat.mod_add_mod,
      List.length_append, List.length_singleton, Nat.add_assoc]

theorem heard_loudness (hne : xs ≠ []) :
    (w.heard xs).loudness = loudnessOf (w.heard xs).mean w.divisor := by
  obtain ⟨before, x, rfl⟩ := (List.eq_nil_or_concat xs).resolve_left hne
  rw [List.concat_eq_append, heard_concat, update_loudness, mean, update_size,
    heard_divisor]

/-- A slot that an energy has come round to is filled. -/
theorem lt_heard_filled_size {i : ℕ} (hi : i < xs.length) :
    (w.cursor + i) % w.size < (w.heard xs).filled.size := by
  induction xs using List.reverseRecOn with
  | nil => exact absurd hi (Nat.not_lt_zero i)
  | append_singleton xs x ih =>
    rw [List.length_append, List.length_singleton] at hi
    have hslot :=
      getElem?_update_filled (w.heard xs) x ((w.cursor + i) % w.size)
    rw [← heard_concat, heard_cursor] at hslot
    rcases (Nat.le_of_lt_succ hi).lt_or_eq with hbefore | rfl
    · split_ifs at hslot with hsame
      · exact (Array.getElem?_eq_some_iff.mp hslot).1
      · rw [Array.getElem?_eq_getElem (ih hbefore)] at hslot
        exact (Array.getElem?_eq_some_iff.mp hslot).1
    · rw [if_pos rfl] at hslot
      exact (Array.getElem?_eq_some_iff.mp hslot).1

theorem heard_filled_size (hk : w.size ≤ xs.length) :
    (w.heard xs).filled.size = w.size := by
  have hcursor := w.cursor_lt
  have hmost := (w.heard xs).filled_le
  rw [heard_size] at hmost
  have hlast :=
    w.lt_heard_filled_size xs (i := w.size - 1 - w.cursor) (by omega)
  have hslot : w.cursor + (w.size - 1 - w.cursor) = w.size - 1 := by omega
  rw [hslot, Nat.mod_eq_of_lt (by omega)] at hlast
  omega

/-- Counted from one place further on, the value in a place that is replaced
comes last. -/
theorem rotate_set {α : Type} {l : List α} {k : ℕ} (a : α) (hk : k < l.length) :
    (l.set k a).rotate (k + 1) = (l.rotate k ++ [a]).drop 1 := by
  have htake : (l.set k a).take (k + 1) = l.take k ++ [a] := by
    rw [List.take_add_one, List.take_set_of_le le_rfl,
      List.getElem?_set_self hk]
    rfl
  rw [List.rotate_eq_drop_append_take (by rwa [List.length_set]), htake,
    List.drop_set_of_lt (Nat.lt_succ_self k),
    List.rotate_eq_drop_append_take hk.le, List.drop_eq_getElem_cons hk,
    List.append_assoc]
  rfl

/-- From the cursor on the ring holds what it has held from there on in the
beginning, and behind that the energies it has heard, as far as there is room
for the latest of them. -/
theorem rotate_ring :
    (w.heard xs).ring.rotate (w.heard xs).cursor =
      (w.ring.rotate w.cursor ++ xs.map finiteOrZero).drop xs.length := by
  induction xs using List.reverseRecOn with
  | nil => rw [List.map_nil, List.append_nil]; rfl
  | append_singleton xs x ih =>
    have hlength : xs.length ≤
        (w.ring.rotate w.cursor ++ xs.map finiteOrZero).length := by
      rw [List.length_append, List.length_map]
      exact Nat.le_add_left _ _
    have hcursor : (w.heard xs).cursor < (w.heard xs).ring.length :=
      (length_ring _).symm ▸ (w.heard xs).cursor_lt
    rw [heard_concat, ring_update, update_cursor, ← length_ring,
      ← List.length_set, List.rotate_mod, rotate_set _ hcursor, ih,
      List.map_append, ← List.append_assoc, List.length_append,
      List.length_singleton, ← List.drop_drop, List.map_singleton,
      List.drop_append_of_le_length hlength]

/-- A full window holds the latest energies, from the cursor on round the
ring. -/
theorem rotate_filled {latest : List Float32} (hlatest : latest <:+ xs)
    (hlength : latest.length = w.size) :
    (w.heard xs).filled.toList.rotate (w.heard xs).cursor =
      latest.map finiteOrZero := by
  have hfull : (w.heard xs).filled.size = (w.heard xs).size := by
    rw [heard_size]
    exact w.heard_filled_size xs (hlength ▸ hlatest.length_le)
  rw [← ring_of_full _ hfull, rotate_ring]
  obtain ⟨older, rfl⟩ := hlatest
  rw [List.map_append, ← List.append_assoc]
  apply List.drop_left'
  rw [List.length_append, List.length_append, List.length_rotate, length_ring,
    List.length_map, hlength, Nat.add_comm]

/-- The slots one after another from the cursor on. -/
theorem getElem?_heard_ring {k : ℕ} (hk : xs.length ≤ k)
    (hround : k < xs.length + w.size) :
    (w.heard xs).ring[(w.cursor + k) % w.size]? =
      (w.ring.rotate w.cursor ++ xs.map finiteOrZero)[k]? := by
  have hlength : (w.heard xs).ring.length = w.size := by
    rw [length_ring, heard_size]
  have hplace : k - xs.length + (w.cursor + xs.length) = w.cursor + k := by
    omega
  have hslots :=
    congrArg (fun slots => slots[k - xs.length]?) (w.rotate_ring xs)
  rw [List.getElem?_rotate (by omega), List.getElem?_drop, heard_cursor,
    hlength, Nat.add_mod_mod, hplace, Nat.add_sub_cancel' hk] at hslots
  exact hslots

end Runs

section Options

variable {size : ℕ} {divisor : Float32} {w : LoudnessWindow} (xs : List Float32)

theorem ofOptions_eq_ok (hpos : 0 < size) (hdivisor : IsPositive divisor)
    (hroom : HasRoom size energyBytes) :
    ofOptions size divisor = .ok (silent size hpos divisor) := by
  rw [ofOptions, dif_pos hpos, if_pos hdivisor, if_pos hroom]

/-- The slots of a new window, each as the number it has come round to finds
it. -/
theorem getElem?_ring_of_ofOptions (hw : ofOptions size divisor = .ok w) {k : ℕ}
    (hk : xs.length ≤ k) (hround : k < xs.length + size) :
    (w.heard xs).ring[k % size]? =
      (List.replicate size 0 ++ xs.map finiteOrZero)[k]? := by
  obtain ⟨-, hpos, rfl⟩ := eq_silent_of_ofOptions hw
  have hslot := (silent size hpos divisor).getElem?_heard_ring xs hk hround
  rwa [ring_silent, List.rotate_replicate,
    show (silent size hpos divisor).cursor = 0 from rfl, Nat.zero_add] at hslot

/-- A slot holds the latest energy whose number it has come round to. -/
theorem getElem?_ring_latest (hw : ofOptions size divisor = .ok w) {i : ℕ}
    (hi : i < xs.length) (hlatest : xs.length ≤ i + size) :
    (w.heard xs).ring[i % size]? = some (finiteOrZero xs[i]) := by
  have hslot := getElem?_ring_of_ofOptions xs hw hlatest (by omega)
  rwa [Nat.add_mod_right,
    List.getElem?_append_right (by rw [List.length_replicate]; omega),
    List.length_replicate, Nat.add_sub_cancel, List.getElem?_map,
    List.getElem?_eq_getElem hi, Option.map_some] at hslot

/-- A slot that no energy has come round to holds zero. -/
theorem getElem?_ring_behind (hw : ofOptions size divisor = .ok w) {j : ℕ}
    (hj : j < size) (hbehind : xs.length ≤ j) :
    (w.heard xs).ring[j]? = some 0 := by
  have hslot := getElem?_ring_of_ofOptions xs hw hbehind (by omega)
  rwa [Nat.mod_eq_of_lt hj,
    List.getElem?_append_left (by rwa [List.length_replicate]),
    List.getElem?_replicate, if_pos hj] at hslot

/-- From the cursor on the zeros that are left come before the latest
energies. -/
theorem rotate_ring_of_ofOptions (hw : ofOptions size divisor = .ok w) :
    (w.heard xs).ring.rotate (w.heard xs).cursor =
      List.replicate (size - xs.length) 0 ++
      (xs.drop (xs.length - size)).map finiteOrZero := by
  obtain ⟨-, hpos, rfl⟩ := eq_silent_of_ofOptions hw
  rw [rotate_ring, ring_silent, List.rotate_replicate, List.drop_append,
    List.drop_replicate, List.length_replicate, List.map_drop]

end Options

/-! ## Resets -/

/-- What a window is used for. -/
inductive Step where
  | hear (energy : Float32)
  | reset

/-- The window after one step. -/
def step (w : LoudnessWindow) : Step → LoudnessWindow
  | .hear energy => w.update energy
  | .reset => w.reset

/-- The window after some steps. -/
def run (w : LoudnessWindow) (steps : List Step) : LoudnessWindow :=
  steps.foldl step w

/-- The energies since the latest reset, after one more step. -/
def recount (energies : List Float32) : Step → List Float32
  | .hear energy => energies ++ [energy]
  | .reset => []

/-- The energies since the latest reset, or all of them if there is none. -/
def sinceReset (steps : List Step) : List Float32 :=
  steps.foldl recount []

section Resets

variable {size : ℕ} {divisor : Float32} {w : LoudnessWindow}

/-- A reset leaves a new window behind. -/
theorem reset_heard (hw : ofOptions size divisor = .ok w) (xs : List Float32) :
    (w.heard xs).reset = w := by
  obtain ⟨-, hpos, rfl⟩ := eq_silent_of_ofOptions hw
  simp only [reset, heard_size, heard_divisor]
  rfl

/-- A new window knows no more than the energies since the latest reset. -/
theorem run_eq_heard (hw : ofOptions size divisor = .ok w) (steps : List Step) :
    w.run steps = w.heard (sinceReset steps) := by
  induction steps using List.reverseRecOn with
  | nil => rfl
  | append_singleton steps s ih =>
    have hrun : w.run (steps ++ [s]) = (w.run steps).step s :=
      List.foldl_concat ..
    have hkept : sinceReset (steps ++ [s]) = recount (sinceReset steps) s :=
      List.foldl_concat ..
    rw [hrun, ih, hkept]
    cases s with
    | hear energy => exact (heard_concat w _ energy).symm
    | reset => exact reset_heard hw _

/-- A new window that has heard `n` energies since the latest reset holds in its
`j`-th slot the energy with the greatest number below `n` that is congruent to
`j`, or zero if there is none.  So it holds each of the latest energies once,
and otherwise zeros.  The loudness comes from the mean of these slots. -/
theorem slots_hold_latest (hw : ofOptions size divisor = .ok w)
    (steps : List Step) :
    ((w.run steps).ring.length = size ∧
      (w.run steps).mean = sum (w.run steps).ring.toArray / ofNat size) ∧
    (∀ j < size,
      (∀ i, IsGreatest {k | k < (sinceReset steps).length ∧
        k ≡ j [MOD size]} i →
        ∃ x, (sinceReset steps)[i]? = some x ∧
          (w.run steps).ring[j]? = some (finiteOrZero x)) ∧
      ((∀ k < (sinceReset steps).length, ¬ k ≡ j [MOD size]) →
        (w.run steps).ring[j]? = some 0)) ∧
    (w.run steps).ring.Perm
      (((sinceReset steps).drop ((sinceReset steps).length - size)).map
          finiteOrZero ++
        List.replicate (size - (sinceReset steps).length) 0) := by
  rw [run_eq_heard hw]
  generalize sinceReset steps = xs
  have hsize : (w.heard xs).size = size := by
    obtain ⟨-, hpos, rfl⟩ := eq_silent_of_ofOptions hw
    exact heard_size _ xs
  refine ⟨⟨by rw [length_ring, hsize], by rw [mean_eq_sum_ring, hsize]⟩,
    fun j hj => ⟨?_, ?_⟩, ?_⟩
  · rintro i ⟨⟨hi, hslot⟩, hgreatest⟩
    have hlatest : xs.length ≤ i + size := by
      by_contra hlater
      have hnext :=
        hgreatest ⟨not_le.mp hlater, (Nat.add_mod_right i size).trans hslot⟩
      omega
    rw [Nat.ModEq, Nat.mod_eq_of_lt hj] at hslot
    exact ⟨xs[i], List.getElem?_eq_getElem hi,
      hslot ▸ getElem?_ring_latest xs hw hi hlatest⟩
  · intro hnone
    apply getElem?_ring_behind xs hw hj
    by_contra hreached
    exact hnone j (not_le.mp hreached) rfl
  · refine ((w.heard xs).ring.rotate_perm (w.heard xs).cursor).symm.trans ?_
    rw [rotate_ring_of_ofOptions xs hw]
    exact List.perm_append_comm

/-- The last of three slots is not reached by two energies, of which an infinite
one counts as zero.  The fourth energy comes round to the first slot. -/
theorem slots_hold_latest_round :
    ∃ (w : LoudnessWindow) (early late : List Step),
      ofOptions 3 2 = .ok w ∧ sinceReset early = [1 / 0, 4] ∧
      (∀ k < (sinceReset early).length, ¬ k ≡ 2 [MOD 3]) ∧
      (w.run early).ring[2]? = some 0 ∧
      (w.run early).ring.Perm [0, 4, 0] ∧
      sinceReset late = [1 / 0, 4, 5, 6] ∧
      IsGreatest {k | k < (sinceReset late).length ∧ k ≡ 0 [MOD 3]} 3 ∧
      (w.run late).ring[0]? = some 6 ∧ (w.run late).ring.Perm [4, 5, 6] := by
  let early : List Step := [.hear 9, .reset, .hear (1 / 0), .hear 4]
  let late : List Step := early ++ [.hear 5, .hear 6]
  have hw :=
    ofOptions_eq_ok (show 0 < 3 by decide) (show IsPositive 2 by decide +kernel)
      (by decide)
  have hnone : ∀ k < (sinceReset early).length, ¬ k ≡ 2 [MOD 3] := by decide
  have hgreatest : IsGreatest {k | k < (sinceReset late).length ∧
      k ≡ 0 [MOD 3]} 3 :=
    ⟨⟨by decide, by decide⟩, fun k hk => Nat.le_of_lt_succ hk.1⟩
  obtain ⟨-, hslots, hperm⟩ := slots_hold_latest hw early
  obtain ⟨-, hslots', hperm'⟩ := slots_hold_latest hw late
  obtain ⟨x, hx, hfirst⟩ := (hslots' 0 (by decide)).1 3 hgreatest
  obtain rfl : 6 = x := Option.some.inj hx
  exact ⟨_, early, late, hw, rfl, hnone, (hslots 2 (by decide)).2 hnone, hperm,
    rfl, hgreatest, hfirst, hperm'⟩

end Resets

end PitchFollower.Midi.LoudnessWindow
