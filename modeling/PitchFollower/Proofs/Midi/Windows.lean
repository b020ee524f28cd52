import PitchFollower.Proofs.Midi.Slots
import PitchFollower.Proofs.Period.Timing
import PitchFollower.Proofs.Single.Conversions

/-!
# What a window forgets

A window that has heard as many energies as it has slots holds the latest of
them and nothing older.  They go round the ring, so they start at the cursor and
not at the first slot.  The mean is added up from the first slot on.  Two
windows that hold the same energies therefore agree on it if their cursors do,
and otherwise up to rounding.
-/

namespace PitchFollower.Midi.LoudnessWindow

open Single

/-! ## Means -/

section Forgetting

/-- The mean of two energies does not depend on which of them comes first. -/
theorem meanOf_pair (a b : Float32) : meanOf 2 #[a, b] = meanOf 2 #[b, a] := by
  have hsum : sum #[a, b] = sum #[b, a] := by
    change -0 + a + b = -0 + b + a
    rw [single_neg_zero_add, single_neg_zero_add, single_add_comm]
  simp only [meanOf, hsum]
  rfl

variable {size : ℕ} {a b : Array Float32}

/-- Energies that go round the ring from different slots have the same mean if
there are no more than two. -/
theorem meanOf_eq_of_isRotated (ha : a.size = size) (hsize : size ≤ 2)
    (h : a.toList ~r b.toList) : meanOf size a = meanOf size b := by
  obtain ⟨n, hn, hrotate⟩ := List.isRotated_iff_mod.mp h
  rw [Array.length_toList, ha] at hn
  by_cases hsame : a.toList = b.toList
  · rw [Array.toList_inj.mp hsame]
  · have hfirst : n ≠ 0 := by
      rintro rfl
      exact hsame ((List.rotate_zero _).symm.trans hrotate)
    have hround : n ≠ size := by
      rintro rfl
      rw [← ha, ← Array.length_toList, List.rotate_length] at hrotate
      exact hsame hrotate
    obtain ⟨rfl, rfl⟩ : n = 1 ∧ size = 2 := by omega
    obtain ⟨x, y, hpair⟩ := List.length_eq_two.mp (Array.length_toList.trans ha)
    rw [hpair] at hrotate
    obtain rfl : a = #[x, y] := Array.toList_inj.mp hpair
    obtain rfl : b = #[y, x] := Array.toList_inj.mp hrotate.symm
    exact meanOf_pair x y

theorem lt_of_hasRoom (hroom : HasRoom size energyBytes) : size < 2 ^ 64 := by
  unfold HasRoom energyBytes maxBufferBytes at hroom
  omega

theorem meanOf_of_full (ha : a.size = size) :
    meanOf size a = sum a / ofNat size := by
  rw [meanOf, if_neg ha.not_lt]

/-- A mean is as far from the exact one as the rounding of the additions and of
the quotient makes it. -/
theorem meanOf_near (ha : a.size = size) (hpos : 0 < size)
    (hroom : HasRoom size energyBytes) (hfinite : ∀ x ∈ a, x.isFinite = true)
    (hmagnitude : growth size * magnitude a.toList ≤ 2 ^ (127 : ℤ)) :
    (meanOf size a).isFinite = true ∧
      |exact (meanOf size a) - (a.toList.map exact).sum / exact (ofNat size)| ≤
        (growth (size + 1) - 1) * (magnitude a.toList / exact (ofNat size)) +
          2 ^ (-150 : ℤ) := by
  have hcount := one_le_exact_ofNat hpos (lt_of_hasRoom hroom)
  have hpositive : 0 < exact (ofNat size) := zero_lt_one.trans_le hcount
  obtain ⟨hsum, hnear⟩ := sum_near hfinite (by rwa [ha])
  have htotal := abs_sum_exact_le a.toList
  have hquotient :=
    div_roundsTo hsum (ofNat_finite (lt_of_hasRoom hroom)).1 hpositive.ne'
  rw [← meanOf_of_full ha] at hquotient
  rw [ha] at hnear
  generalize (a.toList.map exact).sum = total at *
  generalize magnitude a.toList = m at *
  generalize exact (ofNat size) = count at *
  have hbound : |exact (sum a)| ≤ growth size * m := by
    have := abs_sub_abs_le_abs_sub (exact (sum a)) total
    linarith
  have hquotient_le : |exact (sum a) / count| ≤ growth size * (m / count) := by
    rw [abs_div, abs_of_pos hpositive, ← mul_div_assoc]
    gcongr
  have hmost : |exact (sum a) / count| ≤ 2 ^ (127 : ℤ) := by
    rw [abs_div, abs_of_pos hpositive]
    exact (div_le_self (abs_nonneg _) hcount).trans (hbound.trans hmagnitude)
  obtain ⟨hfinite, hslack⟩ := hquotient.near hmost
  refine ⟨hfinite, ?_⟩
  have hsums : |exact (sum a) / count - total / count| ≤
      (growth size - 1) * (m / count) := by
    rw [← sub_div, abs_div, abs_of_pos hpositive, ← mul_div_assoc]
    gcongr
  calc |exact (meanOf size a) - total / count|
      ≤ |exact (meanOf size a) - exact (sum a) / count| +
          |exact (sum a) / count - total / count| := abs_sub_le _ _ _
    _ ≤ slack (growth size * (m / count)) + (growth size - 1) * (m / count) :=
        add_le_add (hslack.trans (slack_mono hquotient_le)) hsums
    _ = (growth (size + 1) - 1) * (m / count) + 2 ^ (-150 : ℤ) := by
        rw [slack, growth_succ]
        ring

/-- The means of the same energies in different order differ by no more than the
rounding of the additions and of the quotients. -/
theorem abs_meanOf_sub_le (ha : a.size = size) (hpos : 0 < size)
    (hroom : HasRoom size energyBytes) (hfinite : ∀ x ∈ a, x.isFinite = true)
    (h : a.toList.Perm b.toList)
    (hmagnitude : growth size * magnitude a.toList ≤ 2 ^ (127 : ℤ)) :
    (meanOf size a).isFinite = true ∧ (meanOf size b).isFinite = true ∧
      |exact (meanOf size a) - exact (meanOf size b)| ≤
        2 * (growth (size + 1) - 1) *
            (magnitude a.toList / exact (ofNat size)) +
          2 ^ (-149 : ℤ) := by
  have hb : b.size = size := by rw [← ha]; exact h.length_eq.symm
  have htotal : (a.toList.map exact).sum = (b.toList.map exact).sum :=
    (h.map exact).sum_eq
  have hsame := magnitude_of_perm h
  have hfinite' : ∀ x ∈ b, x.isFinite = true := by
    intro x hx
    rw [← Array.mem_toList_iff, ← h.mem_iff, Array.mem_toList_iff] at hx
    exact hfinite x hx
  obtain ⟨hleft, hnear⟩ := meanOf_near ha hpos hroom hfinite hmagnitude
  obtain ⟨hright, hnear'⟩ :=
    meanOf_near hb hpos hroom hfinite' (hsame ▸ hmagnitude)
  refine ⟨hleft, hright, ?_⟩
  rw [← htotal, ← hsame, abs_sub_comm] at hnear'
  have htriangle := abs_sub_le (exact (meanOf size a))
    ((a.toList.map exact).sum / exact (ofNat size)) (exact (meanOf size b))
  have htwice : (2 : ℚ) ^ (-149 : ℤ) = 2 * 2 ^ (-150 : ℤ) := by norm_num
  linarith

/-! ## Forgetting -/

section Options

variable {divisor : Float32} {w : LoudnessWindow} {xs ys latest : List Float32}

theorem hasRoom_of_ofOptions (h : ofOptions size divisor = .ok w) :
    HasRoom size energyBytes := by
  unfold ofOptions at h
  split_ifs at h with hpositive hdivisor hroom
  exact hroom

/-- A new window that has heard enough holds the latest energies. -/
theorem full_of_isSuffix (hw : ofOptions size divisor = .ok w)
    (hlength : latest.length = size) (hxs : latest <:+ xs) :
    xs ≠ [] ∧ (w.heard xs).size = size ∧
      (w.heard xs).cursor = xs.length % size ∧
      (w.heard xs).filled.size = size ∧
      (w.heard xs).filled.toList.rotate (w.heard xs).cursor =
        latest.map finiteOrZero := by
  obtain ⟨-, hpos, rfl⟩ := eq_silent_of_ofOptions hw
  have hlong : size ≤ xs.length := hlength ▸ hxs.length_le
  have hcursor := (silent size hpos divisor).heard_cursor xs
  change _ = (0 + xs.length) % size at hcursor
  rw [Nat.zero_add] at hcursor
  exact ⟨List.ne_nil_of_length_pos (hpos.trans_le hlong), heard_size _ xs,
    hcursor, heard_filled_size _ xs hlong, rotate_filled _ xs hxs hlength⟩

/-- Two windows that are used alike and have heard as many energies as they have
slots hold the latest of them, from the cursor on, and nothing older.  If these
are the same, so are the mean and the loudness, provided that the cursors are in
the same slot or that there are no more than two slots.  Otherwise the means
differ by no more than the rounding that comes with the order of the slots. -/
theorem forgets_older_energies (hw : ofOptions size divisor = .ok w)
    (hlength : latest.length = size) (hxs : latest <:+ xs)
    (hys : latest <:+ ys) :
    ((w.heard xs).filled.toList.rotate (w.heard xs).cursor =
      latest.map finiteOrZero ∧
      (w.heard ys).filled.toList.rotate (w.heard ys).cursor =
        latest.map finiteOrZero) ∧
    (xs.length ≡ ys.length [MOD size] ∨ size ≤ 2 →
      (w.heard xs).mean = (w.heard ys).mean ∧
      (w.heard xs).loudness = (w.heard ys).loudness) ∧
    (growth size * magnitude (latest.map finiteOrZero) ≤ 2 ^ (127 : ℤ) →
      (w.heard xs).mean.isFinite = true ∧ (w.heard ys).mean.isFinite = true ∧
      |exact (w.heard xs).mean - exact (w.heard ys).mean| ≤
        2 * (growth (size + 1) - 1) *
            (magnitude (latest.map finiteOrZero) / exact (ofNat size)) +
          2 ^ (-149 : ℤ)) := by
  have hroom := hasRoom_of_ofOptions hw
  obtain ⟨-, hpos, -⟩ := eq_silent_of_ofOptions hw
  obtain ⟨hne, hsize, hcursor, hfull, hring⟩ := full_of_isSuffix hw hlength hxs
  obtain ⟨hne', hsize', hcursor', hfull', hring'⟩ :=
    full_of_isSuffix hw hlength hys
  have hsame := hring.trans hring'.symm
  have hrotated : (w.heard xs).filled.toList ~r (w.heard ys).filled.toList :=
    .trans ⟨_, hsame⟩ (.forall _ _)
  refine ⟨⟨hring, hring'⟩, fun halike => ?_, fun hmagnitude => ?_⟩
  · have hmean : (w.heard xs).mean = (w.heard ys).mean := by
      rw [mean, mean, hsize, hsize']
      rcases halike with hslot | hfew
      · rw [hcursor, hcursor', hslot] at hsame
        rw [Array.toList_inj.mp (List.rotate_injective _ hsame)]
      · exact meanOf_eq_of_isRotated hfull hfew hrotated
    exact ⟨hmean,
      by rw [w.heard_loudness xs hne, w.heard_loudness ys hne', hmean]⟩
  · have hperm :=
      List.rotate_perm (w.heard xs).filled.toList (w.heard xs).cursor
    rw [hring] at hperm
    have hfinite : ∀ x ∈ (w.heard xs).filled, x.isFinite = true := by
      intro x hx
      rw [← Array.mem_toList_iff, ← hperm.mem_iff, List.mem_map] at hx
      obtain ⟨energy, -, rfl⟩ := hx
      exact isFinite_finiteOrZero energy
    rw [magnitude_of_perm hperm] at hmagnitude ⊢
    rw [mean, mean, hsize, hsize']
    exact abs_meanOf_sub_le hfull hpos hroom hfinite hrotated.perm hmagnitude

end Options

theorem loud_start_forgotten :
    ∃ (w : LoudnessWindow) (latest xs : List Float32),
      xs = 5 :: 5 :: 5 :: latest ∧ ofOptions 3 2 = .ok w ∧ latest.length = 3 ∧
      latest <:+ latest ∧ latest <:+ xs ∧ latest.length ≡ xs.length [MOD 3] ∧
      growth 3 * magnitude (latest.map finiteOrZero) ≤ 2 ^ (127 : ℤ) ∧
      (w.heard latest).mean = (w.heard xs).mean ∧
      (w.heard xs).mean.isFinite = true ∧
      (w.heard latest).loudness = (w.heard xs).loudness := by
  have hw :=
    ofOptions_eq_ok (show 0 < 3 by decide) (show IsPositive 2 by decide +kernel)
      (by decide)
  have hslot : 3 ≡ 6 [MOD 3] := by decide
  have hroom : growth 3 * magnitude ([0.1, 0.1, 2.8].map finiteOrZero) ≤
      2 ^ (127 : ℤ) := by
    decide +kernel
  have hsuffix : ([0.1, 0.1, 2.8] : List Float32) <:+ [5, 5, 5, 0.1, 0.1,
      2.8] := ⟨[5, 5, 5], rfl⟩
  obtain ⟨-, hequal, hnear⟩ :=
    forgets_older_energies hw rfl List.suffix_rfl hsuffix
  obtain ⟨hmean, hloudness⟩ := hequal (.inl hslot)
  exact ⟨_, _, _, rfl, hw, rfl, List.suffix_rfl, hsuffix, hslot, hroom, hmean,
    (hnear hroom).2.1, hloudness⟩

/-- The ring is added up from the first slot on, so an older energy, though it
is forgotten, still decides where the latest ones lie. -/
theorem order_of_slots_matters :
    ¬ ∀ (size : ℕ) (divisor : Float32) (w : LoudnessWindow)
      (xs ys latest : List Float32),
      ofOptions size divisor = .ok w → (∀ x ∈ xs ++ ys, x.isFinite = true) →
      latest.length = size → latest <:+ xs → latest <:+ ys →
      (w.heard xs).mean = (w.heard ys).mean ∧
        (w.heard xs).loudness = (w.heard ys).loudness := by
  intro h
  have hw :=
    ofOptions_eq_ok (show 0 < 3 by decide) (show IsPositive 2 by decide +kernel)
      (by decide)
  have hloudness :=
    (h 3 2 _ [0.1, 0.1, 2.8] [0, 0.1, 0.1, 2.8] [0.1, 0.1, 2.8] hw
    (by decide +kernel) rfl List.suffix_rfl ⟨[0], rfl⟩).2
  revert hloudness
  decide +kernel

end Forgetting

end PitchFollower.Midi.LoudnessWindow
