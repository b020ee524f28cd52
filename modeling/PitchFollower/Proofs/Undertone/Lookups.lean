import PitchFollower.Proofs.Single.WholeNumbers
import PitchFollower.Undertone.Wavetable

/-!
# Looking up phases

A phase is turned into a position with two roundings and a floor, and the
position is brought into the table by a remainder.  Near the table the position
is that of the nearest entry, but for the two roundings.  A position is finite
whatever the phase is, because far away it stays at the end of the range of the
floor, so the silence for a position that is not is never reached.  What is not
a number is silent as the first entry, while an infinite phase is heard unless
the size of the table divides this end.
-/

namespace PitchFollower.Wavetable

open Single
open Float.Model (UnpackedFloat)
open Float.Model.UnpackedFloat

/-! ## Positions -/

section Positions

variable {table : Wavetable} {phase : Float32}

theorem isFinite_position (table : Wavetable) (phase : Float32) :
    (table.position phase).isFinite = true :=
  Approximate.isFinite_floor _

/-- What is looked up is the entry at the position, counted around the table. -/
theorem getElem?_position (table : Wavetable) (phase : Float32) :
    table.values[(wholePart64 (table.position phase) %
        table.values.size).toNat]? =
      some (table.lookUp phase) := by
  rw [lookUp, if_pos (isFinite_position table phase)]
  exact Array.getElem?_eq_getElem (table.place phase).isLt

/-- Two roundings, one of the product and one of the sum, move a position near
the table by little. -/
theorem position_near (hsize : table.values.size ≤ 2 ^ 24)
    (hphase : phase.isFinite = true)
    (hnear : |exact phase * table.values.size| ≤ 2 ^ 12) :
    |(wholePart64 (table.position phase) : ℚ) -
        exact phase * table.values.size| ≤
      1 / 2 + 2 ^ (-11 : ℤ) := by
  unfold position
  generalize table.values.size = size at *
  have hproduct :=
    mul_roundsTo hphase (ofNat_finite (hsize.trans_lt (by norm_num))).1
  rw [exact_ofNat hsize] at hproduct
  generalize exact phase * size = q at *
  have hscaled : Within (2 ^ 12) (phase * ofNat size) :=
    hproduct.within (onGrid_zpow (e := 12) (by norm_num)) (by norm_num) hnear
  have hscalederror :=
    abs_nearest_sub_le_of_abs_le (q := q) (t := -12) (by norm_num)
    (hnear.trans (by norm_num))
  rw [← hproduct.exact_eq hscaled.isFinite] at hscalederror
  have hhalf : Within (1 / 2) 0.5 :=
    ⟨rfl, by rw [Approximate.exact_half]; norm_num⟩
  have hsum :=
    hscaled.add hhalf (onGrid_zpow (e := 13) (by norm_num)) (by norm_num)
      (by norm_num)
  have hsumerror := abs_nearest_sub_le_of_abs_le (t := -11) (by norm_num)
    (((abs_add_le _ _).trans (add_le_add hscaled.abs_le hhalf.abs_le)).trans
      (by norm_num))
  rw [← (add_roundsTo hscaled.isFinite hhalf.isFinite).exact_eq hsum.isFinite,
    Approximate.exact_half] at hsumerror
  have hmost := hsum.abs_le.trans_lt (by norm_num : (2 : ℚ) ^ (13 : ℤ) < 2 ^ 23)
  have hwhole := Approximate.wholePart64_floor hsum.isFinite hmost
  have hlow := Int.floor_le (exact (phase * ofNat size + 0.5))
  have hhigh := Int.lt_floor_add_one (exact (phase * ofNat size + 0.5))
  rw [hwhole]
  rw [abs_le] at hscalederror hsumerror ⊢
  norm_num at hscalederror hsumerror ⊢
  constructor <;> linarith

/-- Far away a position stays at the end of the range of the floor. -/
theorem position_of_infinity {s : Sign} (hsize : table.values.size < 2 ^ 64)
    (hphase : unpacked phase = .infinity s) :
    wholePart64 (table.position phase) = s.apply (2 ^ 31) := by
  have hpos := one_pos.trans_le (one_le_exact_ofNat table.nonempty hsize)
  have hscaled := unpacked_mul_of_infinity hphase (ofNat_finite hsize).1 hpos
  have hsum :=
    unpacked_add_of_infinity hscaled
      (show (0.5 : Float32).isFinite = true from rfl)
  rw [position, eq_ofUnpacked hsum]
  cases s <;> decide +kernel

theorem position_of_isNaN (hphase : phase.isNaN = true) :
    wholePart64 (table.position phase) = 0 := by
  have hnan : unpacked phase = .notANumber := by
    change (unpacked phase).isNaN = true at hphase
    cases h : unpacked phase <;> rw [h] at hphase <;> first | rfl | cases hphase
  have hscaled : phase * ofNat table.values.size = ofUnpacked .notANumber := by
    change ofUnpacked (mul .binary32 (unpacked phase) _) = _
    rw [hnan]
    rfl
  rw [position, hscaled]
  decide +kernel

end Positions

/-! ## Entries -/

theorem ofSize_eq_ok {size : ℕ} (hleast : 1 ≤ size) :
    ofSize size = .ok (sine size hleast) :=
  dif_pos hleast

theorem size_sine {size : ℕ} (hleast : 1 ≤ size) :
    (sine size hleast).values.size = size := by
  simp [sine]

theorem getElem?_sine {size i : ℕ} (hleast : 1 ≤ size) (hi : i < size) :
    (sine size hleast).values[i]? = some (sineAt size i) := by
  simp [sine, hi]

/-- The first entry is zero, because a zero of either sign vanishes next to a
quarter of a turn. -/
theorem sineAt_zero {size : ℕ} (hleast : 1 ≤ size) (hmost : size < 2 ^ 64) :
    sineAt size 0 = 0 := by
  have hpos := one_pos.trans_le (one_le_exact_ofNat hleast hmost)
  have hangle : Within 0 (2 * Approximate.pi * ofNat 0 / ofNat size) := by
    have hzero : Within 0 (2 * Approximate.pi * ofNat 0) :=
      ⟨by decide +kernel, by decide +kernel⟩
    have hgrid : OnGrid 0 := by
      simpa using onGrid_natCast (n := 0) (by norm_num)
    exact hzero.div (ofNat_finite hmost).1 hpos hgrid (by norm_num) (by simp)
  have hquarter : (Approximate.pi / 2).isFinite = true ∧
      exact (Approximate.pi / 2) ≠ 0 := by
    decide +kernel
  have hsub := sub_roundsTo hangle.isFinite hquarter.1
  rw [abs_nonpos_iff.mp hangle.abs_le, zero_sub] at hsub
  have heq : 2 * Approximate.pi * ofNat 0 / ofNat size - Approximate.pi / 2 =
      -(Approximate.pi / 2) :=
    eq_of_roundsTo hsub
      (by rw [exact_neg, nearest_neg, nearest_of_onGrid (onGrid_exact _)])
      (by rw [exact_neg]; exact neg_ne_zero.mpr hquarter.2)
  rw [sineAt, Approximate.sin, heq]
  decide +kernel

/-- Every phase finds an entry of the table, and a phase near the table, before
or behind it, finds the nearest one, counted around the table. -/
theorem looks_up_nearest_entry {size : ℕ} (hleast : 1 ≤ size)
    (hmost : size ≤ 2 ^ 24) :
    ∃ table, ofSize size = .ok table ∧ table.values.size = size ∧
      (∀ i < size, table.values[i]? = some (sineAt size i)) ∧
      ∀ phase, (table.position phase).isFinite = true ∧
        (∃ i < size, table.values[i]? = some (table.lookUp phase)) ∧
        (phase.isFinite = true → |exact phase * size| ≤ 2 ^ 12 →
          ∃ m : ℤ, |m - exact phase * size| ≤ 1 / 2 + 2 ^ (-11 : ℤ) ∧
            table.values[(m % size).toNat]? = some (table.lookUp phase)) := by
  have hsize := size_sine hleast
  refine ⟨sine size hleast, ofSize_eq_ok hleast, hsize,
    fun i => getElem?_sine hleast, fun phase => ⟨isFinite_position _ _, ?_,
      fun hphase hnear => ?_⟩⟩
  · have hentry := getElem?_position (sine size hleast) phase
    obtain ⟨hlt, -⟩ := Array.getElem?_eq_some_iff.mp hentry
    exact ⟨_, hlt.trans_eq hsize, hentry⟩
  · have hposition :=
      position_near (hsize.trans_le hmost) hphase (by rwa [hsize])
    have hentry := getElem?_position (sine size hleast) phase
    rw [hsize] at hposition hentry
    exact ⟨_, hposition, hentry⟩

/-- A phase before the table. -/
theorem phase_before_table_looked_up :
    (1 ≤ 100 ∧ 100 ≤ 2 ^ 24) ∧
    ∃ table, ofSize 100 = .ok table ∧
      ((-0.255 : Float32).isFinite = true ∧
        |exact (-0.255) * (100 : ℕ)| ≤ 2 ^ 12) ∧
      ∃ m : ℤ, |m - exact (-0.255) * (100 : ℕ)| ≤ 1 / 2 + 2 ^ (-11 : ℤ) ∧
        table.values[(m % (100 : ℕ)).toNat]? =
          some (table.lookUp (-0.255)) := by
  obtain ⟨table, htable, -, -, hphases⟩ :=
    @looks_up_nearest_entry 100 (by norm_num) (by norm_num)
  have hphase : (-0.255 : Float32).isFinite = true := by decide +kernel
  have hnear : |exact (-0.255) * (100 : ℕ)| ≤ 2 ^ 12 := by decide +kernel
  exact ⟨⟨by norm_num, by norm_num⟩, table, htable, ⟨hphase, hnear⟩,
    (hphases (-0.255)).2.2 hphase hnear⟩

/-! ## Phases that are not finite -/

theorem lookUp_eq_sineAt {size : ℕ} (hleast : 1 ≤ size) {phase : Float32}
    {i : ℤ} (h : wholePart64 ((sine size hleast).position phase) = i) :
    (sine size hleast).lookUp phase = sineAt size (i % size).toNat := by
  have hentry := getElem?_position (sine size hleast) phase
  have hpos : (0 : ℤ) < size := by exact_mod_cast hleast
  have hlow := Int.emod_nonneg i hpos.ne'
  have hhigh := Int.emod_lt_of_pos i hpos
  rw [h, size_sine hleast, getElem?_sine hleast (by omega)] at hentry
  exact (Option.some_inj.mp hentry).symm

/-- A phase that is not a number is silent.  An infinite one finds the entry at
the end of the range of the floor, counted around the table, and is silent if
the size of the table divides this end. -/
theorem endless_phases_looked_up {size : ℕ} (hleast : 1 ≤ size)
    (hmost : size < 2 ^ 64) :
    ∃ table, ofSize size = .ok table ∧
      ∀ phase : Float32,
        (phase.isNaN = true → table.lookUp phase = 0) ∧
        (∀ s, unpacked phase = .infinity s →
          table.lookUp phase = sineAt size (s.apply (2 ^ 31) % size).toNat ∧
          (size ∣ 2 ^ 31 → table.lookUp phase = 0)) := by
  have hsize := size_sine hleast
  refine ⟨sine size hleast, ofSize_eq_ok hleast,
    fun phase => ⟨fun hnan => ?_, fun s hinf => ?_⟩⟩
  · rw [lookUp_eq_sineAt hleast (position_of_isNaN hnan), Int.zero_emod]
    exact sineAt_zero hleast hmost
  · have hentry :=
      lookUp_eq_sineAt hleast (position_of_infinity (hsize.trans_lt hmost) hinf)
    refine ⟨hentry, fun hdvd => ?_⟩
    have hend : (size : ℤ) ∣ 2 ^ 31 := by exact_mod_cast hdvd
    have hrest : s.apply (2 ^ 31) % size = 0 := by
      apply Int.emod_eq_zero_of_dvd
      cases s
      · exact hend.neg_right
      · exact hend
    rw [hentry, hrest]
    exact sineAt_zero hleast hmost

/-- A table of 64 entries is silent at the negative infinity and at what is not
a number. -/
theorem endless_phases_silent :
    (1 ≤ 64 ∧ 64 < 2 ^ 64) ∧
    ∃ table, ofSize 64 = .ok table ∧
      ((0 / 0 : Float32).isNaN = true ∧ table.lookUp (0 / 0) = 0) ∧
      unpacked (-1 / 0) = .infinity .negative ∧ 64 ∣ 2 ^ 31 ∧
      table.lookUp (-1 / 0) = 0 := by
  obtain ⟨table, htable, hphases⟩ :=
    @endless_phases_looked_up 64 (by norm_num) (by norm_num)
  have hnan : (0 / 0 : Float32).isNaN = true := by decide +kernel
  have hinf : unpacked (-1 / 0) = .infinity .negative := rfl
  have hdvd : 64 ∣ 2 ^ 31 := by norm_num
  exact ⟨⟨by norm_num, by norm_num⟩, table, htable, ⟨hnan, (hphases _).1 hnan⟩,
    hinf, hdvd, ((hphases _).2 _ hinf).2 hdvd⟩

/-- A table of 100 entries is not silent at the infinities. -/
theorem infinite_phases_heard :
    ∃ table, ofSize 100 = .ok table ∧
      (1 / 0 : Float32).isFinite = false ∧ (table.lookUp (1 / 0) == 0) = false ∧
      (-1 / 0 : Float32).isFinite = false ∧
      (table.lookUp (-1 / 0) == 0) = false := by
  have hsize := @size_sine 100 (by norm_num)
  have hup : unpacked (1 / 0) = .infinity .positive := rfl
  have hdown : unpacked (-1 / 0) = .infinity .negative := rfl
  refine ⟨sine 100 (by norm_num), ofSize_eq_ok (by norm_num),
    by decide +kernel, ?_, by decide +kernel, ?_⟩
  · rw [lookUp_eq_sineAt (by norm_num)
      (position_of_infinity (by rw [hsize]; norm_num) hup)]
    decide +kernel
  · rw [lookUp_eq_sineAt (by norm_num)
      (position_of_infinity (by rw [hsize]; norm_num) hdown)]
    decide +kernel

end PitchFollower.Wavetable
