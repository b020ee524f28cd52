import PitchFollower.Proofs.Single.Midpoints
import PitchFollower.Proofs.Tuning.Descent

/-!
# Tones at their own frequencies

A frequency belongs to the tone that it is nearest to, so one expects the
frequency of a tone to belong to this tone.  The boundary between two
neighbouring tones is half of their rounded sum.  It is the exact midpoint,
rounded, unless the sum is out of range.  So the boundary above a tone fails
only if the midpoint is rounded down to the tone itself, for which the two
frequencies have to be neighbouring numbers, and the one below it only if it is
infinite.
-/

namespace PitchFollower

namespace Single

open Float.Model.UnpackedFloat

/-! ## Halves of sums -/

/-- Halving a rounded sum is rounding half of the exact one: a sum that has no
room for being halved is not rounded itself. -/
theorem nearest_half_nearest {a b : ℚ} (ha : OnGrid a) (hb : OnGrid b) :
    nearest (nearest (a + b) / 2) = nearest ((a + b) / 2) := by
  rcases lt_or_ge |a + b| (2 ^ (-125 : ℤ)) with hsmall | hlarge
  · rw [nearest_of_onGrid ((ha.add_onPlace hb).onGrid le_rfl hsmall)]
  · have hhalf : nearest ((a + b) / 2) = nearest (a + b) / 2 := by
      rw [div_eq_mul_inv, div_eq_mul_inv, ← zpow_neg_one]
      apply nearest_mul_zpow
      · exact le_trans (zpow_le_zpow_right₀ (by norm_num) (by norm_num)) hlarge
      · calc (2 : ℚ) ^ (-126 : ℤ) = 2 ^ (-125 : ℤ) * 2 ^ (-1 : ℤ) := by norm_num
          _ ≤ |a + b| * 2 ^ (-1 : ℤ) :=
            mul_le_mul_of_nonneg_right hlarge (two_zpow_pos _).le
    rw [← hhalf, nearest_of_onGrid (onGrid_nearest _)]

/-- A midpoint is not rounded down to the lower number if there is another one
in between. -/
theorem OnGrid.lt_nearest_midpoint {a b x : ℚ} (ha : OnGrid a) (hpos : 0 < a)
    (hx : OnGrid x) (hlow : a < x) (hhigh : x < b) :
    a < nearest ((a + b) / 2) := by
  obtain ⟨n, s, hgap, rfl⟩ := ha.exists_gap_above hpos
  have hspos := two_zpow_pos s
  have hnext : (n + 1) * 2 ^ s ≤ x :=
    le_of_not_gt fun hlt => (hgap.le_low hx hlt).not_gt hlow
  have hmiddle : (n * 2 ^ s + (n + 1) * 2 ^ s) / 2 =
      ((n : ℚ) + 1 / 2) * 2 ^ s := by ring
  have hmid : ((n : ℚ) + 1 / 2) * 2 ^ s < (n * 2 ^ s + b) / 2 := by
    rw [← hmiddle]
    linarith
  exact (mul_lt_mul_of_pos_right (lt_add_one _) hspos).trans_le
    (hgap.high_le_nearest hmid)

section Halves

variable {x y z : Float32}

theorem half_add_finite (h : (x + y).isFinite = true) :
    (0.5 * (x + y)).isFinite = true ∧
      exact (0.5 * (x + y)) = nearest ((exact x + exact y) / 2) := by
  obtain ⟨hx, hy⟩ := isFinite_of_add h
  have hhalf : exact 0.5 = 1 / 2 := by decide +kernel
  have hround := mul_roundsTo (show (0.5 : Float32).isFinite = true from rfl) h
  rw [hhalf, one_div_mul_eq_div] at hround
  obtain ⟨hfinite, hexact⟩ := hround.finite_of_abs_le (onGrid_abs_exact (x + y))
    (by rw [← exact_abs]; exact (le_abs_self _).trans_lt (abs_exact_lt _))
    (by rw [abs_div]; exact div_le_self (abs_nonneg _) (by norm_num))
  refine ⟨hfinite, ?_⟩
  rw [hexact, (add_roundsTo hx hy).exact_eq h]
  exact nearest_half_nearest (onGrid_exact x) (onGrid_exact y)

/-- Half of a positive sum that is out of range is still above every number. -/
theorem lt_half_add (hx : x.isFinite = true) (hy : y.isFinite = true)
    (hnonneg : 0 ≤ exact x + exact y) (hinfinite : (x + y).isFinite ≠ true)
    (hz : z.isFinite = true) : z < 0.5 * (x + y) := by
  have hsum := add_roundsTo hx hy
  unfold RoundsTo at hsum
  split_ifs at hsum with hrange hneg
  · exact absurd hsum.1 hinfinite
  · exact absurd hneg hnonneg.not_gt
  · apply lt_positive_infinity hz
    change unpacked
      (ofUnpacked (mul .binary32 (unpacked 0.5) (unpacked (x + y)))) = _
    rw [hsum]
    exact unpacked_ofUnpacked (u := .infinity .positive) trivial trivial

/-- A sum is in range if one with larger operands is. -/
theorem add_isFinite_of_le {x' y' : Float32} (hx : x.isFinite = true)
    (hy : y.isFinite = true) (hnonneg : 0 ≤ exact x + exact y)
    (hxle : exact x ≤ exact x') (hyle : exact y ≤ exact y')
    (h : (x' + y').isFinite = true) : (x + y).isFinite = true := by
  obtain ⟨hx', hy'⟩ := isFinite_of_add h
  have hmost := (le_abs_self _).trans_lt (abs_exact_lt (x' + y'))
  rw [(add_roundsTo hx' hy').exact_eq h] at hmost
  refine ((add_roundsTo hx hy).within_nearest ?_ hmost).isFinite
  rw [abs_of_nonneg hnonneg]
  exact add_le_add hxle hyle

end Halves

end Single

open Single

namespace Scale

/-! ## Scales by places -/

section Places

variable {tones : List Tone} {s : Scale} {t u : Tone} {i j : ℕ}

theorem tones_of_ofTones (h : ofTones tones = .ok s) : s.tones = tones := by
  unfold ofTones at h
  split at h
  · cases h
  · cases h
  · split_ifs at h
    cases h
    rfl

theorem isPositive_of_getElem? (ht : s.tones[i]? = some t) :
    t.frequency.isFinite = true ∧ 0 < exact t.frequency :=
  (isPositive_iff _).mp (s.audible t (List.mem_of_getElem? ht))

theorem exact_frequency_lt (hij : i < j) (ht : s.tones[i]? = some t)
    (hu : s.tones[j]? = some u) : exact t.frequency < exact u.frequency := by
  obtain ⟨hi, rfl⟩ := List.getElem?_eq_some_iff.mp ht
  obtain ⟨hj, rfl⟩ := List.getElem?_eq_some_iff.mp hu
  exact List.pairwise_iff_getElem.mp s.pairwise_tones i j hi hj hij

theorem exact_frequency_le (hij : i ≤ j) (ht : s.tones[i]? = some t)
    (hu : s.tones[j]? = some u) : exact t.frequency ≤ exact u.frequency := by
  rcases hij.lt_or_eq with hlt | rfl
  · exact (exact_frequency_lt hlt ht hu).le
  · rw [Option.some_inj.mp (ht.symm.trans hu)]

theorem exists_of_le (hij : i ≤ j) (hu : s.tones[j]? = some u) :
    ∃ t, s.tones[i]? = some t := by
  obtain ⟨hj, -⟩ := List.getElem?_eq_some_iff.mp hu
  exact ⟨_, List.getElem?_eq_getElem (hij.trans_lt hj)⟩

theorem getElem?_highest (s : Scale) :
    s.tones[s.above.length]? = some s.highest := by
  have hlast : (s.lowest :: s.above).getLast (List.cons_ne_nil _ _) =
      s.highest :=
    List.getLast_cons s.above_ne_nil
  rw [← hlast, List.getLast_eq_getElem]
  simp [tones]

/-- The frequency of a tone lies within the scale, and a scan settles which tone
it belongs to. -/
theorem nearest?_frequency (ht : s.tones[i]? = some t) :
    s.nearest? t.frequency = some (settle t.frequency s.lowest s.above) := by
  have hi : i ≤ s.above.length := by
    obtain ⟨hi, -⟩ := List.getElem?_eq_some_iff.mp ht
    exact Nat.lt_succ_iff.mp hi
  have hsome := isSome_nearest? (isPositive_of_getElem? ht).1
    (exact_frequency_le (Nat.zero_le i) rfl ht)
      (exact_frequency_le hi ht s.getElem?_highest)
  obtain ⟨v, hv⟩ := Option.isSome_iff_exists.mp hsome
  rw [hv, (bounds_of_nearest? hv).2.2.2]

end Places

/-! ## Settling -/

/-- Where a scan stops, the next boundary is above the frequency, and no
boundary before that is. -/
theorem exists_settle (f : Float32) (t : Tone) (above : List Tone) :
    ∃ k, (t :: above)[k]? = some (settle f t above) ∧
      (∀ j < k, ∀ r u, (t :: above)[j]? = some r →
        (t :: above)[j + 1]? = some u →
        ¬ f < midpoint r u) ∧
      ∀ u, (t :: above)[k + 1]? = some u →
      f < midpoint (settle f t above) u := by
  induction above generalizing t with
  | nil => exact ⟨0, rfl, fun j hj => absurd hj (Nat.not_lt_zero j),
    fun u hu => by cases hu⟩
  | cons v rest ih =>
    rw [settle]
    by_cases hf : f < midpoint t v
    · rw [if_pos hf]
      refine ⟨0, rfl, fun j hj => absurd hj (Nat.not_lt_zero j), fun u hu => ?_⟩
      cases hu
      exact hf
    · obtain ⟨k, hk, hbefore, hafter⟩ := ih v
      rw [if_neg hf]
      refine ⟨k + 1, hk, fun j hj r u hr hu => ?_, hafter⟩
      cases j with
      | zero =>
        cases hr
        cases hu
        exact hf
      | succ j => exact hbefore j (Nat.lt_of_succ_lt_succ hj) r u hr hu

section Boundaries

variable {s : Scale} {r t u : Tone} {i j : ℕ}

/-- The boundary below a tone, and every one before, is not above the tone,
unless it is infinite. -/
theorem not_lt_midpoint (hj : j < i) (hr : s.tones[j]? = some r)
    (hu : s.tones[j + 1]? = some u) (ht : s.tones[i]? = some t)
    (hfinite : (r.frequency + u.frequency).isFinite = true) :
    ¬ t.frequency < midpoint r u := by
  obtain ⟨hmidpoint, hexact⟩ := half_add_finite hfinite
  have hru := exact_frequency_lt (Nat.lt_succ_self j) hr hu
  have hut := exact_frequency_le hj hu ht
  unfold midpoint
  rw [lt_iff (isPositive_of_getElem? ht).1 hmidpoint, hexact, not_lt]
  exact (onGrid_exact t.frequency).nearest_le (by linarith)

/-- The boundary above a tone is above it, unless it is rounded down to the
tone. -/
theorem lt_midpoint_iff (ht : s.tones[i]? = some t)
    (hu : s.tones[j]? = some u) :
    t.frequency < midpoint t u ↔ ((t.frequency + u.frequency).isFinite = true →
      exact t.frequency <
        nearest ((exact t.frequency + exact u.frequency) / 2)) := by
  obtain ⟨htfinite, htpos⟩ := isPositive_of_getElem? ht
  obtain ⟨hufinite, hupos⟩ := isPositive_of_getElem? hu
  by_cases hfinite : (t.frequency + u.frequency).isFinite = true
  · obtain ⟨hmidpoint, hexact⟩ := half_add_finite hfinite
    rw [imp_iff_right hfinite, ← hexact]
    exact lt_iff htfinite hmidpoint
  · have hlt :=
      lt_half_add htfinite hufinite (add_pos htpos hupos).le hfinite htfinite
    exact iff_of_true hlt fun h => absurd h hfinite

/-- Two frequencies with another number in between have a midpoint that is not
rounded down to the lower one. -/
theorem lt_nearest_midpoint (ht : s.tones[i]? = some t)
    (hu : s.tones[j]? = some u) {x : Float32} (hlow : t.frequency < x)
    (hhigh : x < u.frequency) :
    exact t.frequency <
      nearest ((exact t.frequency + exact u.frequency) / 2) := by
  obtain ⟨htfinite, htpos⟩ := isPositive_of_getElem? ht
  obtain ⟨hufinite, -⟩ := isPositive_of_getElem? hu
  have hx := isFinite_of_between hlow hhigh
  exact (onGrid_exact _).lt_nearest_midpoint htpos (onGrid_exact x)
    ((lt_iff htfinite hx).mp hlow)
    ((lt_iff hx hufinite).mp hhigh)

/-- The sum of two neighbours is in range if one of two higher neighbours is. -/
theorem add_isFinite_of_lt (hji : j < i) (hr : s.tones[j]? = some r)
    (hu : s.tones[j + 1]? = some u) (ht : s.tones[i]? = some t)
    (h : ∀ k x, k + 1 = i → s.tones[k]? = some x →
      (x.frequency + t.frequency).isFinite = true) :
    (r.frequency + u.frequency).isFinite = true := by
  obtain ⟨k, rfl⟩ : ∃ k, i = k + 1 := ⟨i - 1, by omega⟩
  obtain ⟨x, hx⟩ := exists_of_le (Nat.le_succ k) ht
  obtain ⟨hrfinite, hrpos⟩ := isPositive_of_getElem? hr
  obtain ⟨hufinite, hupos⟩ := isPositive_of_getElem? hu
  exact add_isFinite_of_le hrfinite hufinite (add_pos hrpos hupos).le
    (exact_frequency_le (Nat.le_of_lt_succ hji) hr hx)
      (exact_frequency_le hji hu ht) (h k x rfl hx)

end Boundaries

/-- A tone of a scale is the nearest one to its own frequency if and only if its
sum with the tone below is in range and the midpoint with the tone above, unless
that sum is out of range, is not rounded down to the tone.  A midpoint is not
rounded down if there is another number between the two frequencies. -/
theorem nearest?_frequency_eq_some_iff {tones : List Tone} {s : Scale}
    (hs : ofTones tones = .ok s) {i : ℕ} {t : Tone} (ht : tones[i]? = some t) :
    s.IsPlace t i ∧
    (s.nearest? t.frequency = some t ↔
      (∀ j r, j + 1 = i → tones[j]? = some r →
        (r.frequency + t.frequency).isFinite = true) ∧
      ∀ u, tones[i + 1]? = some u →
      (t.frequency + u.frequency).isFinite = true →
        exact t.frequency <
          nearest ((exact t.frequency + exact u.frequency) / 2)) ∧
    ∀ u, tones[i + 1]? = some u → (∃ x, t.frequency < x ∧ x < u.frequency) →
      exact t.frequency <
        nearest ((exact t.frequency + exact u.frequency) / 2) := by
  rw [← tones_of_ofTones hs] at ht ⊢
  refine ⟨isPlace_of_getElem? ht, ?_,
    fun u hu ⟨x, hlow, hhigh⟩ => lt_nearest_midpoint ht hu hlow hhigh⟩
  obtain ⟨k, hk, hbefore, hafter⟩ := exists_settle t.frequency s.lowest s.above
  rw [nearest?_frequency ht]
  constructor
  · intro h
    rw [Option.some_inj] at h
    rw [h] at hk hafter
    obtain rfl := (isPlace_of_getElem? hk i).mp ht
    refine ⟨fun j r hj hr => ?_,
      fun u hu => (lt_midpoint_iff ht hu).mp (hafter u hu)⟩
    subst hj
    by_contra hinfinite
    obtain ⟨hrfinite, hrpos⟩ := isPositive_of_getElem? hr
    obtain ⟨htfinite, htpos⟩ := isPositive_of_getElem? ht
    exact hbefore j (Nat.lt_succ_self j) r t hr ht
      (lt_half_add hrfinite htfinite (add_pos hrpos htpos).le hinfinite
        htfinite)
  · rintro ⟨hbelow, habove⟩
    have hki : k = i := by
      rcases lt_trichotomy k i with hlt | heq | hlt
      · obtain ⟨u, hu⟩ := exists_of_le hlt ht
        exact absurd (hafter u hu)
          (not_lt_midpoint hlt hk hu ht
            (add_isFinite_of_lt hlt hk hu ht hbelow))
      · exact heq
      · obtain ⟨u, hu⟩ := exists_of_le hlt hk
        exact absurd ((lt_midpoint_iff ht hu).mpr (habove u hu))
          (hbefore i hlt t u ht hu)
    subst hki
    exact hk.symm.trans ht

theorem ofTones_eq_ok {t u : Tone} {rest : List Tone}
    (haudible : ∀ x ∈ t :: u :: rest, x.Audible)
    (hascending : Ascending (t :: u :: rest)) :
    ofTones (t :: u :: rest) =
      .ok ⟨t, u :: rest, List.cons_ne_nil u rest, haudible, hascending⟩ := by
  rw [ofTones, dif_pos haudible, dif_pos hascending]

/-- Three tones with a single number between two of them. -/
def narrow : List Tone :=
  [⟨440, "A4", 69⟩, ⟨.ofBits 0x43dc0002, "A4 sharp", 70⟩,
    ⟨.ofBits 0x43dc0004, "A4 sharper", 71⟩]

theorem narrow_tone_found :
    ∃ s t, (ofTones narrow = .ok s ∧ narrow[1]? = some t) ∧
      t.name = "A4 sharp" ∧
      s.nearest? t.frequency = some t := by
  have hs : ofTones narrow = .ok _ :=
    ofTones_eq_ok (by decide +kernel) (by decide +kernel)
  have ht : narrow[1]? = some ⟨.ofBits 0x43dc0002, "A4 sharp", 70⟩ := rfl
  obtain ⟨-, hiff, hapart⟩ := nearest?_frequency_eq_some_iff hs ht
  refine ⟨_, _, ⟨hs, ht⟩, rfl, hiff.mpr ⟨?_, fun u hu _ => hapart u hu ?_⟩⟩
  · rintro j r hj hr
    obtain rfl : j = 0 := by omega
    cases hr
    decide +kernel
  · cases hu
    exact ⟨.ofBits 0x43dc0003, by decide +kernel, by decide +kernel⟩

/-- Two tones at neighbouring numbers, and two whose sum is out of range. -/
def crowded : List Tone :=
  [⟨440, "A4", 69⟩, ⟨.ofBits 0x43dc0001, "A4 sharp", 70⟩, ⟨2e38, "high", 71⟩,
    ⟨3e38, "higher", 72⟩]

/-- The lower one of two neighbouring numbers is taken for the higher one, and
the higher one of two large numbers for the lower one. -/
theorem crowded_tones_missed :
    ∃ s, ofTones crowded = .ok s ∧
      (s.nearest? 440).map Tone.noteNumber = some 70 ∧
      (s.nearest? 3e38).map Tone.noteNumber = some 71 ∧
      ¬ ∀ t ∈ crowded, s.nearest? t.frequency = some t := by
  have hs : ofTones crowded = .ok _ :=
    ofTones_eq_ok (by decide +kernel) (by decide +kernel)
  refine ⟨_, hs, by decide +kernel, by decide +kernel, fun h => ?_⟩
  have hfound :=
    congrArg (Option.map Tone.noteNumber) (h ⟨440, "A4", 69⟩ List.mem_cons_self)
  exact absurd hfound (by decide +kernel)

end Scale

end PitchFollower
