import PitchFollower.Period.Crossing
import PitchFollower.Proofs.Single.Order

/-!
# Timing a crossing

Bounds on the rounded arithmetic of a period.  The crossing lies at most one
sample before the negative one, the count of samples never leaves the range in
which one more sample makes a difference by more than a tie, and the difference
of the two is at least one as soon as two samples have been counted.
-/

namespace PitchFollower

open Single

/-! ## Silenced samples -/

theorem isFinite_finiteOrZero (x : Float32) :
    (finiteOrZero x).isFinite = true := by
  unfold finiteOrZero
  split_ifs with h
  · exact h
  · rfl

/-! ## The place of a crossing -/

/-- The distance of a crossing from the negative sample behind it. -/
structure IsFraction (f : Float32) : Prop where
  isFinite : f.isFinite = true
  nonneg : 0 ≤ exact f
  le_one : exact f ≤ 1

section Fraction

variable {last first : Float32}

/-- A fall to a negative sample is positive, however small it is. -/
theorem fraction_eq_div
    (hlast : last.isFinite = true) (hfirst : first.isFinite = true)
    (hnonneg : 0 ≤ exact last) (hneg : exact first < 0) :
    Crossing.fraction last first = -first / (last - first) := by
  have hpos : 0 < exact (-first) := by
    rw [exact_neg]
    linarith
  have hle : exact (-first) ≤ exact last - exact first := by
    rw [exact_neg]
    linarith
  exact if_pos
    ((sub_roundsTo hlast hfirst).pos (onGrid_exact (-first)) hpos hle)

/-- The part of the fall that lies behind the crossing is a rounded quotient,
and zero if the fall is out of range, where the quotient is one by an
infinity. -/
theorem fraction_cases
    (hlast : last.isFinite = true) (hfirst : first.isFinite = true)
    (hnonneg : 0 ≤ exact last) (hneg : exact first < 0) :
    (Crossing.fraction last first).isFinite = true ∧
      (exact (-first) ≤ nearest (exact last - exact first) ∧
          exact (Crossing.fraction last first) =
            nearest (exact (-first) / nearest (exact last - exact first)) ∨
        2 ^ 128 ≤ |nearest (exact last - exact first)| ∧
          exact (Crossing.fraction last first) = 0) := by
  have hpos : 0 < exact (-first) := by
    rw [exact_neg]
    linarith
  have hle : exact (-first) ≤ nearest (exact last - exact first) := by
    apply (onGrid_exact (-first)).le_nearest
    rw [exact_neg]
    linarith
  have hfirst' : (-first).isFinite = true := isFinite_neg first ▸ hfirst
  have hdrop := sub_roundsTo hlast hfirst
  rw [fraction_eq_div hlast hfirst hnonneg hneg]
  unfold RoundsTo at hdrop
  split_ifs at hdrop with hrange hsign
  · obtain ⟨hfinite, hexact⟩ := hdrop
    rw [← hexact] at hle ⊢
    have hdroppos : 0 < exact (last - first) := hpos.trans_le hle
    have hquot : |exact (-first) / exact (last - first)| ≤ 1 := by
      rw [abs_of_pos (div_pos hpos hdroppos)]
      exact (div_le_one hdroppos).mpr hle
    obtain ⟨hfinite', hexact'⟩ :=
      (div_roundsTo hfirst' hfinite hdroppos.ne').finite_of_abs_le
      onGrid_one (by norm_num) hquot
    exact ⟨hfinite', .inl ⟨hle, hexact'⟩⟩
  · linarith
  · obtain ⟨hfinite, hexact⟩ := div_infinity hfirst' hdrop
    exact ⟨hfinite, .inr ⟨not_lt.mp hrange, hexact⟩⟩

theorem isFraction_fraction
    (hlast : last.isFinite = true) (hfirst : first.isFinite = true)
    (hnonneg : 0 ≤ exact last) (hneg : exact first < 0) :
    IsFraction (Crossing.fraction last first) := by
  have hpos : 0 < exact (-first) := by
    rw [exact_neg]
    linarith
  obtain ⟨hfinite, ⟨hle, hexact⟩ | ⟨-, hexact⟩⟩ :=
    fraction_cases hlast hfirst hnonneg hneg
  · have hdrop := hpos.trans_le hle
    refine ⟨hfinite, ?_, ?_⟩
    · rw [hexact]
      exact nearest_nonneg (div_pos hpos hdrop).le
    · rw [hexact]
      exact onGrid_one.nearest_le ((div_le_one hdrop).mpr hle)
  · exact ⟨hfinite, hexact.ge, hexact.le.trans zero_le_one⟩

/-- After silence the crossing lies a whole sample before the negative one. -/
theorem fraction_after_silence
    (hlast : last.isFinite = true) (hfirst : first.isFinite = true)
    (hzero : exact last = 0) (hneg : exact first < 0) :
    exact (Crossing.fraction last first) = 1 := by
  have hpos : 0 < exact (-first) := by
    rw [exact_neg]
    linarith
  have hcases := fraction_cases hlast hfirst hzero.ge hneg
  rw [hzero, zero_sub, ← exact_neg, nearest_of_onGrid (onGrid_exact _),
    div_self hpos.ne', nearest_of_onGrid onGrid_one] at hcases
  obtain ⟨-, ⟨-, hexact⟩ | ⟨hrange, -⟩⟩ := hcases
  · exact hexact
  · exact absurd hrange (abs_exact_lt _).not_ge

end Fraction

/-! ## The count of samples -/

/-- The count of samples since a crossing.  It stays at `2 ^ 24` once it is
there, because adding one is a tie that goes to the even number. -/
structure IsCount (e : Float32) : Prop where
  isFinite : e.isFinite = true
  nonneg : 0 ≤ exact e
  le_most : exact e ≤ 2 ^ 24

theorem IsFraction.isCount {f : Float32} (hf : IsFraction f) : IsCount f :=
  ⟨hf.isFinite, hf.nonneg, hf.le_one.trans (by norm_num)⟩

theorem nearest_most_add_one : nearest (2 ^ 24 + 1) = 2 ^ 24 := by
  simpa using nearest_most_succ_mul_zpow (t := 0) (by norm_num)

theorem add_one_finite
    {e : Float32} (he : IsCount e) :
    (e + 1).isFinite = true ∧ exact (e + 1) = nearest (exact e + 1) := by
  have hsum :=
    add_roundsTo he.isFinite (show (1 : Float32).isFinite = true from rfl)
  rw [exact_one] at hsum
  have hnonneg := he.nonneg
  have hmost := he.le_most
  refine hsum.finite_of_abs_le (onGrid_zpow (e := 25) (by norm_num))
    (by norm_num) ?_
  rw [abs_of_nonneg (by linarith)]
  norm_num at hmost ⊢
  linarith

theorem IsCount.add_one {e : Float32} (he : IsCount e) : IsCount (e + 1) := by
  obtain ⟨hfinite, hexact⟩ := add_one_finite he
  refine ⟨hfinite, ?_, ?_⟩
  · rw [hexact]
    exact nearest_nonneg (by linarith [he.nonneg])
  · rw [hexact, ← nearest_most_add_one]
    exact nearest_mono (by linarith [he.le_most])

theorem IsCount.le_exact_add_one {e : Float32} (he : IsCount e) {g : ℚ}
    (hg : OnGrid g) (h : g ≤ exact e + 1) : g ≤ exact (e + 1) := by
  rw [(add_one_finite he).2]
  exact hg.le_nearest h

/-- A count is at least the number of samples, as far as it can tell them
apart. -/
theorem IsCount.min_add_one_le {e : Float32} (he : IsCount e) {k c : ℕ}
    (hc : c ≤ 2 ^ 24) (h : (min k c : ℕ) ≤ exact e) :
    (min (k + 1) c : ℕ) ≤ exact (e + 1) := by
  have hgrid : OnGrid (min (k + 1) c : ℕ) := by
    simpa using onGrid_natCast_mul_zpow (m := min (k + 1) c) (t := 0)
      (by omega) (by norm_num)
  have hmin : min (k + 1) c ≤ min k c + 1 := by omega
  apply he.le_exact_add_one hgrid
  calc ((min (k + 1) c : ℕ) : ℚ) ≤ (min k c + 1 : ℕ) := by exact_mod_cast hmin
    _ = (min k c : ℕ) + 1 := by push_cast; ring
    _ ≤ exact e + 1 := by linarith

/-- A count tells apart no sample, one sample and more. -/
theorem IsCount.atLeast_add_one
    {e : Float32} (he : IsCount e) {k : ℕ} (h : (min k 2 : ℕ) ≤ exact e) :
    (min (k + 1) 2 : ℕ) ≤ exact (e + 1) :=
  he.min_add_one_le (by norm_num) h

/-! ## Periods -/

theorem sub_finite
    {e f : Float32} (he : IsCount e) (hf : IsFraction f) :
    (e - f).isFinite = true ∧ exact (e - f) = nearest (exact e - exact f) := by
  have hnonneg := he.nonneg
  have hmost := he.le_most
  have hfnonneg := hf.nonneg
  have hfone := hf.le_one
  refine (sub_roundsTo he.isFinite hf.isFinite).finite_of_abs_le
    (onGrid_zpow (e := 24) (by norm_num)) (by norm_num) ?_
  rw [abs_le]
  norm_num at hmost ⊢
  constructor <;> linarith

/-- A crossing two samples after the one before it closes a period of at least
one sample. -/
theorem one_le_period
    {e f : Float32} (he : IsCount e) (hf : IsFraction f) (htwo : 2 ≤ exact e) :
    1 ≤ e - f := by
  obtain ⟨hfinite, hexact⟩ := sub_finite he hf
  rw [le_iff rfl hfinite, hexact, exact_one]
  exact onGrid_one.le_nearest (by linarith [hf.le_one])

theorem pos_of_one_le {x : Float32} (hx : x.isFinite = true) (h : 1 ≤ x) :
    0 < x := by
  rw [le_iff rfl hx, exact_one] at h
  rw [pos_iff hx]
  linarith

/-- A crossing that coincides with the one before it closes no period. -/
theorem not_pos_period {e f : Float32} (he : IsCount e) (hf : IsFraction f)
    (heq : exact e = exact f) : ¬ 0 < e - f := by
  obtain ⟨hfinite, hexact⟩ := sub_finite he hf
  rw [pos_iff hfinite, hexact, heq, sub_self, nearest_zero]
  exact lt_irrefl 0

end PitchFollower
