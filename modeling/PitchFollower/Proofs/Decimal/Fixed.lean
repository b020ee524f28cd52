import PitchFollower.Decimal.Fixed
import PitchFollower.Proofs.Decimal.Digits
import PitchFollower.Proofs.Double.Rounding
import PitchFollower.Proofs.Single.Bits

/-!
# Fixed decimal places

A number with a full mantissa is written with its exact value rounded to the
nearest whole number of units of the last decimal place, and the digits of the
text are the digits of that number.
-/

namespace PitchFollower.Decimal

open Double (IsNormal exact unpacked)
open Single (exactOf nearestInt)

/-! ## Units of the last place -/

theorem roundDiv_eq (num : ℕ) {den : ℕ} (hden : 0 < den) :
    (roundDiv num den : ℤ) = nearestInt (num / den) := by
  have hden' : (0 : ℚ) < den := by exact_mod_cast hden
  have hfloor : ⌊(num / den : ℚ)⌋ = (num / den : ℕ) := by
    exact_mod_cast Rat.floor_natCast_div_natCast num den
  have hrest : (num / den : ℚ) - (num / den : ℕ) = (num % den : ℕ) / den := by
    have hsplit : ((den * (num / den) + num % den : ℕ) : ℚ) = num := by
      rw [Nat.div_add_mod]
    rw [eq_div_iff hden'.ne', sub_mul, div_mul_cancel₀ _ hden'.ne', ← hsplit]
    push_cast
    ring
  have hbelow : ((num % den : ℕ) / den : ℚ) < 1 / 2 ↔
      2 * (num % den) < den := by
    rw [div_lt_div_iff₀ hden' (by norm_num), one_mul, mul_comm]
    exact_mod_cast Iff.rfl
  have habove : 1 / 2 < ((num % den : ℕ) / den : ℚ) ↔
      den < 2 * (num % den) := by
    rw [div_lt_div_iff₀ (by norm_num) hden', one_mul, mul_comm]
    exact_mod_cast Iff.rfl
  unfold nearestInt
  rw [hfloor, Int.cast_natCast, hrest]
  simp only [hbelow, habove]
  unfold roundDiv
  dsimp only
  cases hcompare : compare (2 * (num % den)) den with
  | lt =>
    rw [Nat.compare_eq_lt] at hcompare
    rw [if_pos hcompare]
  | gt =>
    rw [Nat.compare_eq_gt] at hcompare
    rw [if_neg (by omega), if_pos hcompare, Nat.cast_succ]
  | eq =>
    rw [Nat.compare_eq_eq] at hcompare
    rw [if_neg (by omega), if_neg (by omega)]
    push_cast
    rfl

theorem fixedUnits_eq {x : Float} (hx : IsNormal (unpacked x)) (places : ℕ) :
    (fixedUnits places x : ℤ) = nearestInt (exact x * 10 ^ places) := by
  obtain ⟨m, e, hm, hunpacked, -⟩ := hx
  have hfinite : (unpacked x).isFinite = true := by
    rw [hunpacked]
    rfl
  have hnonneg : 0 ≤ exact x := by
    rw [exact, hunpacked, Single.exactOf_finite, Single.signed]
    positivity
  have hmagnitude :=
    Single.abs_exactOf_unpack_binary64 (b := x.toBits.toBitVec) hfinite
  change |exact x| = _ at hmagnitude
  rw [abs_of_nonneg hnonneg, zpow_eq_div, UInt64.toNat_toBitVec] at hmagnitude
  rw [hmagnitude]
  unfold fixedUnits
  simp only [Nat.pow_eq]
  rw [roundDiv_eq _ (Nat.two_pow_pos _)]
  push_cast
  congr 1
  ring

/-! ## The text -/

theorem toList_writeFixed (places : ℕ) (x : Float) :
    ∃ whole fraction :
      List Char, (writeFixed places x).toList = whole ++ '.' :: fraction ∧
      (∀ c ∈ whole, c.isDigit = true) ∧ (∀ c ∈ fraction, c.isDigit = true) ∧
      (0 < places → ofDigits (whole ++ fraction) = fixedUnits places x) := by
  have hpow : 0 < 10 ^ places := Nat.pow_pos (by norm_num)
  refine ⟨digits (fixedUnits places x / 10 ^ places),
    List.replicate
      (places - (digits (fixedUnits places x % 10 ^ places)).length) '0' ++
      digits (fixedUnits places x % 10 ^ places), ?_, ?_, ?_, fun hplaces => ?_⟩
  · unfold writeFixed
    simp only [Nat.pow_eq, String.toList_append, String.toList_ofList,
      List.append_assoc]
    rfl
  · exact fun c hc => isDigit_of_mem_digits hc
  · intro c hc
    rcases List.mem_append.mp hc with hzero | hdigit
    · rw [List.eq_of_mem_replicate hzero]
      decide
    · exact isDigit_of_mem_digits hdigit
  · have hlength :
        (digits (fixedUnits places x % 10 ^ places)).length ≤ places :=
      (Nat.length_toDigits_le_iff (by norm_num) hplaces).mpr (Nat.mod_lt _ hpow)
    rw [ofDigits_append, ofDigits_append, ofDigits_digits, ofDigits_digits,
      ofDigits_zeros, List.length_append, List.length_replicate,
      Nat.sub_add_cancel hlength, mul_zero, zero_add, Nat.div_add_mod]

end PitchFollower.Decimal
