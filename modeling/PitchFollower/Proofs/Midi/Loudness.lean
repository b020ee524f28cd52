import PitchFollower.Proofs.Midi.Quiet
import PitchFollower.Proofs.Midi.Windows
import PitchFollower.Proofs.Single.Monotone

/-!
# Louder signals

A window that hears larger energies than another one is never quieter than it.
Every step from the energies to the loudness keeps the order: the additions and
the scaling, which may overflow to an infinity on either side but never to a
NaN, rounding, and cutting off at both ends.
-/

namespace PitchFollower.Midi.LoudnessWindow

open Single

/-! ## Means and their loudness -/

section Means

variable {size : ℕ} {a b : Array Float32} {mean mean' divisor : Float32}

theorem forall₂_of_getElem? {α β : Type} {R : α → β → Prop} {xs : List α}
    {ys : List β} (h : ∀ j : ℕ, Option.Rel R xs[j]? ys[j]?) :
    List.Forall₂ R xs ys := by
  induction xs generalizing ys with
  | nil =>
    cases ys with
    | nil => exact .nil
    | cons y ys => exact nomatch h 0
  | cons x xs ih =>
    cases ys with
    | nil => exact nomatch h 0
    | cons y ys =>
      have hhead : Option.Rel R (some x) (some y) := h 0
      cases hhead with
      | some hxy => exact .cons hxy (ih fun j => h (j + 1))

theorem meanOf_mono (hpos : 0 < size) (hroom : HasRoom size energyBytes)
    (h : ∀ j : ℕ, Option.Rel InOrder a[j]? b[j]?) :
    meanOf size a ≤ meanOf size b := by
  have hterms : List.Forall₂ InOrder a.toList b.toList :=
    forall₂_of_getElem? fun j => by
      rw [Array.getElem?_toList, Array.getElem?_toList]
      exact h j
  have hsize : a.size = b.size := hterms.length_eq
  have hzero : InOrder 0 0 := ⟨rfl, rfl, by decide +kernel⟩
  have hcount :=
    zero_lt_one.trans_le (one_le_exact_ofNat hpos (lt_of_hasRoom hroom))
  unfold meanOf
  rw [hsize]
  apply div_le_div_of_pos (ofNat_finite (lt_of_hasRoom hroom)).1 hcount
  split_ifs
  · exact hzero.add_le_add (sum_mono hterms)
  · exact sum_mono hterms

/-- Cutting off at both ends of the range of a MIDI value keeps the order. -/
theorem loudnessOf_mono (hdivisor : IsPositive divisor) (h : mean ≤ mean') :
    loudnessOf mean divisor ≤ loudnessOf mean' divisor := by
  have hscaled : Approximate.round (mean / divisor * 127) ≤
      Approximate.round (mean' / divisor * 127) := by
    rw [le_iff (Approximate.isFinite_round _) (Approximate.isFinite_round _)]
    apply Approximate.exact_round_mono
    apply mul_le_mul_of_pos full_scale.1 (by rw [full_scale.2]; norm_num)
    exact div_le_div_of_pos hdivisor.1 ((pos_iff hdivisor.1).mp hdivisor.2) h
  have hmost := loudnessOf_le mean divisor
  have hfinite := Approximate.isFinite_round (mean / divisor * 127)
  have hfinite' := Approximate.isFinite_round (mean' / divisor * 127)
  unfold loudnessOf at hmost ⊢
  generalize Approximate.round (mean / divisor * 127) = scaled at *
  generalize Approximate.round (mean' / divisor * 127) = scaled' at *
  rw [le_iff hfinite hfinite'] at hscaled
  dsimp only at hmost ⊢
  simp only [le_iff full_scale.1 hfinite, le_iff full_scale.1 hfinite',
    full_scale.2, pos_iff hfinite, pos_iff hfinite'] at hmost ⊢
  by_cases hfull' : 127 ≤ exact scaled'
  · rwa [if_pos hfull']
  · by_cases hpositive : 0 < exact scaled
    · rw [if_neg hfull', if_neg (by linarith), if_pos hpositive,
        if_pos (by linarith), UInt8.le_iff_toNat_le]
      have hcut := toNat_toUInt8 hfinite hpositive.le (by linarith)
      have hcut' := toNat_toUInt8 hfinite' (by linarith) (by linarith)
      have := Int.floor_le_floor hscaled
      omega
    · rw [if_neg (by linarith : ¬ 127 ≤ exact scaled), if_neg hpositive]
      exact UInt8.le_iff_toNat_le.mpr (Nat.zero_le _)

end Means

/-! ## Windows -/

/-- Two windows that are used alike, the one with smaller energies than the
other. -/
structure Under (w w' : LoudnessWindow) : Prop where
  size : w'.size = w.size
  cursor : w'.cursor = w.cursor
  divisor : w'.divisor = w.divisor
  slots : ∀ j : ℕ, Option.Rel InOrder w.filled[j]? w'.filled[j]?
  loudness : w.loudness ≤ w'.loudness

section Run

variable {w w' : LoudnessWindow} {x y : Float32} {xs ys : List Float32}

theorem Under.refl (hw : w.filled = #[]) : Under w w where
  size := rfl
  cursor := rfl
  divisor := rfl
  slots j := by
    rw [hw]
    exact .none
  loudness := UInt8.le_refl _

theorem Under.mean_le (h : Under w w') (hroom : HasRoom w.size energyBytes) :
    w.mean ≤ w'.mean := by
  rw [mean, mean, h.size]
  exact meanOf_mono (Nat.zero_lt_of_lt w.cursor_lt) hroom h.slots

theorem Under.update (h : Under w w') (hroom : HasRoom w.size energyBytes)
    (hdivisor : IsPositive w.divisor) (hxy : InOrder x y) :
    Under (w.update x) (w'.update y) := by
  have hslots (j : ℕ) :
      Option.Rel InOrder (w.update x).filled[j]? (w'.update y).filled[j]? := by
    rw [getElem?_update_filled, getElem?_update_filled, h.cursor]
    split_ifs
    · rw [finiteOrZero, finiteOrZero, if_pos hxy.left, if_pos hxy.right]
      exact .some hxy
    · exact h.slots j
  refine ⟨?size, ?cursor, ?divisor, hslots, ?loudness⟩
  case size => rw [update_size, update_size, h.size]
  case cursor => rw [update_cursor, update_cursor, h.size, h.cursor]
  case divisor => rw [update_divisor, update_divisor, h.divisor]
  case loudness =>
    rw [update_loudness, update_loudness, h.size, h.divisor]
    exact loudnessOf_mono hdivisor
      (meanOf_mono (Nat.zero_lt_of_lt w.cursor_lt) hroom hslots)

theorem Under.heard (h : Under w w') (hroom : HasRoom w.size energyBytes)
    (hdivisor : IsPositive w.divisor) (hxs : List.Forall₂ InOrder xs ys) :
    Under (w.heard xs) (w'.heard ys) := by
  induction hxs generalizing w w' with
  | nil => exact h
  | cons hxy _ ih =>
    exact ih (h.update hroom hdivisor hxy) (by rwa [update_size])
      (by rwa [update_divisor])

end Run

section Options

variable {size : ℕ} {divisor : Float32} {w : LoudnessWindow}
variable {xs ys : List Float32}

/-- The loudness rises with the energies: of two new windows that are used
alike, the one with the smaller energies is never louder, whatever the number of
energies they have heard.  Their means are in order too, so neither of them is
ever a NaN. -/
theorem loudness_le_of_energies_le (hw : ofOptions size divisor = .ok w)
    (h : List.Forall₂ InOrder xs ys) (n : ℕ) :
    (w.heard (xs.take n)).mean ≤ (w.heard (ys.take n)).mean ∧
      (w.heard (xs.take n)).loudness ≤ (w.heard (ys.take n)).loudness := by
  have hroom := hasRoom_of_ofOptions hw
  obtain ⟨hdivisor, hpos, rfl⟩ := eq_silent_of_ofOptions hw
  have hunder : Under (silent size hpos divisor) (silent size hpos divisor) :=
    .refl rfl
  have hheard := hunder.heard hroom hdivisor (List.forall₂_take n h)
  refine ⟨hheard.mean_le ?_, hheard.loudness⟩
  rw [heard_size]
  exact hroom

/-- The sums of the larger energies overflow, and those of the smaller ones do
not. -/
theorem overflow_is_louder :
    ∃ (w : LoudnessWindow) (xs ys : List Float32),
      ofOptions 3 2 = .ok w ∧ xs = [-1, 1.5, -0] ∧ ys = [3e38, 3e38, 0] ∧
      List.Forall₂ InOrder xs ys ∧ (w.heard ys).mean.isFinite = false ∧
      (w.heard xs).mean ≤ (w.heard ys).mean ∧
      (w.heard xs).loudness ≤ (w.heard ys).loudness := by
  have hw :=
    ofOptions_eq_ok (show 0 < 3 by decide) (show IsPositive 2 by decide +kernel)
      (by decide)
  have horder : List.Forall₂ InOrder [-1, 1.5, -0] [3e38, 3e38, 0] :=
    .cons ⟨by decide +kernel, by decide +kernel, by decide +kernel⟩
      (.cons ⟨by decide +kernel, by decide +kernel, by decide +kernel⟩
        (.cons ⟨by decide +kernel, by decide +kernel, by decide +kernel⟩ .nil))
  exact ⟨_, _, _, hw, rfl, rfl, horder, by decide +kernel,
    loudness_le_of_energies_le hw horder 3⟩

end Options

end PitchFollower.Midi.LoudnessWindow
