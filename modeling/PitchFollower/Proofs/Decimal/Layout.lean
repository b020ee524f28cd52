import PitchFollower.Decimal.Layout
import PitchFollower.Decimal.Scaling
import PitchFollower.Proofs.Decimal.Digits

/-!
# Written decimals

The digits of a stored number write the decimal it was made from, wherever the
point is set among them.  Only a number without a fraction is written with more
digits than it has, since its point is kept and a zero stands behind it.
-/

namespace PitchFollower.Decimal

/-- The decimal that the stored form of a decimal writes, digit by digit. -/
def asStored (d : Decimal) : Decimal :=
  if 0 ≤ d.exponent ∧
    d.position ≤ 13 then ⟨d.significand * 10 ^ (d.exponent.toNat + 1),
      -1⟩ else d

/-! ## The decimal that is written -/

section AsStored

variable (d : Decimal)

theorem value_asStored : d.asStored.value = d.value := by
  unfold asStored
  split_ifs with hwhole
  · have hexponent : -1 = d.exponent - (d.exponent.toNat + 1 : ℕ) := by omega
    rw [hexponent, value_shift]
  · rfl

theorem exponent_asStored :
    d.asStored.exponent.natAbs ≤ max 1 d.exponent.natAbs := by
  unfold asStored
  split_ifs
  · exact le_max_left 1 _
  · exact le_max_right 1 _

theorem significand_asStored_pos (h : 0 < d.significand) :
    0 < d.asStored.significand := by
  unfold asStored
  split_ifs
  · exact Nat.mul_pos h (Nat.pow_pos (by norm_num))
  · exact h

/-- Zeros are only written where the point stands near the digits. -/
theorem significand_asStored_lt (h : d.significand < 2 ^ 53) :
    d.asStored.significand < 2 ^ 53 := by
  unfold asStored
  split_ifs with hwhole
  · have hplaces : digitCount d.significand + (d.exponent.toNat + 1) ≤ 14 := by
      unfold position at hwhole
      omega
    calc d.significand * 10 ^ (d.exponent.toNat + 1)
        < 10 ^ digitCount d.significand * 10 ^ (d.exponent.toNat + 1) :=
          Nat.mul_lt_mul_of_pos_right (lt_pow_digitCount _)
            (Nat.pow_pos (by norm_num))
      _ = 10 ^ (digitCount d.significand + (d.exponent.toNat + 1)) :=
        (pow_add _ _ _).symm
      _ ≤ 10 ^ 14 := Nat.pow_le_pow_right (by norm_num) hplaces
      _ < 2 ^ 53 := by norm_num
  · exact h

end AsStored

/-! ## Stored forms -/

theorem digits_append_zeros (n k : ℕ) :
    ofDigits (digits n ++ List.replicate k '0') = n * 10 ^ k := by
  rw [ofDigits_append, ofDigits_zeros, ofDigits_digits, List.length_replicate,
    add_zero, mul_comm]

theorem asStored_eq_self {d : Decimal}
    (h : ¬ (0 ≤ d.exponent ∧ d.position ≤ 13)) : d.asStored = d :=
  if_neg h

/-- Digits that are split by the point write the same significand. -/
theorem decimalOf_split (d : Decimal) (p : ℕ)
    (h : p ≤ digitCount d.significand) :
    Numeral.decimalOf ((digits d.significand).take p)
      ((digits d.significand).drop p)
      (d.position - p) = d := by
  have hexponent : d.position - p - ((digits d.significand).drop p).length =
      d.exponent := by
    rw [List.length_drop]
    unfold position digitCount at *
    omega
  rw [Numeral.decimalOf, List.take_append_drop, ofDigits_digits, hexponent]

theorem magnitude_setPositional {d : Decimal} (h : d.position ≤ 13) :
    (setPositional true d).magnitude = d.asStored := by
  by_cases hwhole : 0 ≤ d.exponent
  · have hset : setPositional true d =
        ⟨false, digits d.significand ++ List.replicate d.exponent.toNat '0',
          ['0'], none⟩ :=
      if_pos hwhole
    have hzero : ofDigits ['0'] = 0 := ofDigits_zeros 1
    have hpoint : (0 : ℤ) - (['0'] : List Char).length = -1 := rfl
    rw [hset, asStored, if_pos ⟨hwhole, h⟩, Numeral.magnitude,
      Numeral.decimalOf, ofDigits_append, digits_append_zeros, hzero,
      Option.getD_none, hpoint, List.length_singleton, pow_one, add_zero,
      pow_succ, mul_left_comm, mul_comm 10]
  · rw [asStored_eq_self (by tauto)]
    by_cases hpoint : 0 < d.position
    · have hset : setPositional true d = ⟨false,
        (digits d.significand).take d.position.toNat,
          (digits d.significand).drop d.position.toNat, none⟩ :=
        (if_neg hwhole).trans (if_pos hpoint)
      have hfew : d.position.toNat ≤ digitCount d.significand := by
        unfold position
        omega
      have hsplit := decimalOf_split d d.position.toNat hfew
      rw [Int.toNat_of_nonneg hpoint.le, sub_self] at hsplit
      rw [hset]
      exact hsplit
    · have hset : setPositional true d = ⟨false, ['0'],
          List.replicate (-d.position).toNat '0' ++ digits d.significand,
          none⟩ :=
        (if_neg hwhole).trans (if_neg hpoint)
      have hzeros (j : ℕ) :
          ofDigits (['0'] ++ (List.replicate j '0' ++ digits d.significand)) =
            d.significand := by
        rw [← List.append_assoc, ← List.replicate_one, ← List.replicate_add,
          ofDigits_append, ofDigits_zeros, ofDigits_digits, mul_zero, zero_add]
      have hexponent : (0 : ℤ) - (List.replicate (-d.position).toNat '0' ++
          digits d.significand).length = d.exponent := by
        rw [List.length_append, List.length_replicate]
        unfold position digitCount at *
        omega
      rw [hset, Numeral.magnitude, Numeral.decimalOf, hzeros, Option.getD_none,
        hexponent]

/-- The stored form of a decimal writes its digits. -/
theorem magnitude_set (d : Decimal) :
    (set .stored d).magnitude = d.asStored := by
  have hcount := digitCount_pos d.significand
  by_cases hpositional : -5 ≤ d.position ∧ d.position ≤ 13
  · have hset : set .stored d = setPositional true d :=
      if_pos (decide_eq_true hpositional)
    rw [hset, magnitude_setPositional hpositional.2]
  · have hset : set .stored d = setScientific d :=
      if_neg (by simpa [Layout.stored] using hpositional)
    have hself : d.asStored = d := by
      apply asStored_eq_self
      unfold position at *
      omega
    rw [hset, hself]
    exact decimalOf_split d 1 hcount

/-- A stored number is not an integer as it is written. -/
theorem not_isIntegral_set (d : Decimal) : ¬ (set .stored d).IsIntegral := by
  rintro ⟨hfraction, hexponent⟩
  unfold set at hfraction hexponent
  split_ifs at hfraction hexponent
  · unfold setPositional at hfraction
    dsimp only at hfraction
    split_ifs at hfraction with hwhole hkeeps hpoint
    · exact hkeeps rfl
    · have hall := List.drop_eq_nil_iff.mp hfraction
      unfold position digitCount at *
      omega
    · exact digits_ne_nil _ (List.append_eq_nil_iff.mp hfraction).2
  · cases hexponent

end PitchFollower.Decimal
