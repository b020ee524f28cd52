import PitchFollower.Proofs.Decimal.Fixed
import PitchFollower.Session.Offline

/-!
# Printed times

The time of an event is the number of samples heard before it divided by their
rate, in double precision, and a line shows its thousandths.  This module reads
the thousandths off a line again.  They are off from the exact quotient by
little more than half a unit, and the lines about later events never show an
earlier time.
-/

namespace PitchFollower.Session

open Double (RoundsTo exact unpacked)
open Single (nearestInt)

/-! ## The text of a line -/

/-- The thousandths of a second at the beginning of a line, up to their unit. -/
def thousandths (line : String) : ℕ :=
  Decimal.ofDigits ((line.toList.takeWhile (· ≠ 's')).filter Char.isDigit)

theorem thousandths_line (rate : UInt32) (e : TimedEvent) :
    thousandths (e.line rate) = Decimal.fixedUnits 3 (e.time rate) := by
  obtain ⟨whole, fraction, htext, hwhole, hfraction, hunits⟩ :=
    Decimal.toList_writeFixed 3 (e.time rate)
  obtain ⟨count, hline⟩ : ∃ count, (e.line rate).toList =
      (List.replicate count ' ' ++ (whole ++ '.' :: fraction) ++ [' ']) ++
        's' :: (' ' :: ' ' :: e.event.describe.toList) := by
    refine ⟨9 - (Decimal.writeFixed 3 (e.time rate)).length, ?_⟩
    simp only [TimedEvent.line, Decimal.padLeft, String.toList_append,
      String.toList_ofList, htext, List.append_assoc]
    rfl
  have hfront : ∀ c ∈ List.replicate count ' ' ++
    (whole ++ '.' :: fraction) ++ [' '],
      decide (c ≠ 's') = true := by
    intro c hc
    have hdigit (hc : c.isDigit = true) : decide (c ≠ 's') = true := by
      rw [decide_eq_true_eq]
      rintro rfl
      cases hc
    simp only [List.mem_append, List.mem_cons, List.not_mem_nil, or_false] at hc
    rcases hc with (hblank | hc | rfl | hc) | rfl
    · rw [List.eq_of_mem_replicate hblank]
      rfl
    · exact hdigit (hwhole c hc)
    · rfl
    · exact hdigit (hfraction c hc)
    · rfl
  have hblanks : (List.replicate count ' ').filter Char.isDigit = [] :=
    List.filter_eq_nil_iff.mpr fun c hc => by
      rw [List.eq_of_mem_replicate hc]
      exact Bool.false_ne_true
  rw [thousandths, hline, List.takeWhile_append_of_pos hfront,
    List.takeWhile_cons_of_neg (by simp), List.append_nil, List.filter_append,
    List.filter_append, List.filter_append, hblanks,
    List.filter_cons_of_neg (by decide), List.filter_eq_self.mpr hwhole,
    List.filter_eq_self.mpr hfraction, ← hunits (by norm_num)]
  exact congrArg Decimal.ofDigits (List.append_nil _)

/-! ## Times -/

section Times

variable {rate : UInt32} {e : TimedEvent}

theorem toNat_pos_of_ne_zero (hrate : rate ≠ 0) : 0 < rate.toNat :=
  Nat.pos_of_ne_zero fun h => hrate (UInt32.toNat_inj.mp h)

theorem exact_rate (hrate : rate ≠ 0) :
    Double.IsNormal (unpacked rate.toFloat) ∧
      exact rate.toFloat = rate.toNat := by
  rw [Double.toFloat_eq]
  exact Double.toFloat_spec (toNat_pos_of_ne_zero hrate)
    (rate.toNat_lt.trans (by norm_num))

/-- Two roundings lead to a time: that of the count and that of the quotient. -/
theorem time_roundsTo (hpos : 0 < e.heard) (hmost : e.heard < 2 ^ 64)
    (hrate : rate ≠ 0) :
    RoundsTo (exact e.heard.toUInt64.toFloat / rate.toNat)
      (unpacked (e.time rate)) := by
  obtain ⟨hnormal, hexact⟩ := exact_rate hrate
  have hheard := Double.toFloat_roundsTo hpos hmost
  have hone : (1 : ℚ) ≤ e.heard := by exact_mod_cast hpos
  have htop : (e.heard : ℚ) < 2 ^ 64 := by exact_mod_cast hmost
  have hleast : (1 : ℚ) ≤ rate.toNat := by
    exact_mod_cast toNat_pos_of_ne_zero hrate
  have hlast : (rate.toNat : ℚ) ≤ 2 ^ 32 := by exact_mod_cast rate.toNat_lt.le
  have herror := abs_le.mp hheard.error
  change RoundsTo _ (unpacked (e.heard.toUInt64.toFloat / rate.toFloat))
  rw [← hexact]
  apply Double.div_roundsTo hheard.normal hnormal
  rw [hexact]
  change _ ≤ exact _ - _ ∧ exact _ - _ ≤ _ at herror
  have hpos' : (0 : ℚ) < rate.toNat := by linarith
  constructor
  · calc (2 : ℚ) ^ (-1022 : ℤ) ≤ 2 ^ (-33 : ℤ) :=
          zpow_le_zpow_right₀ (by norm_num) (by norm_num)
      _ = 1 / 2 / 2 ^ 32 := by norm_num
      _ ≤ exact e.heard.toUInt64.toFloat / rate.toNat := by
        apply div_le_div₀ _ _ hpos' hlast
        · linarith
        · linarith
  · calc exact e.heard.toUInt64.toFloat / rate.toNat ≤
        exact e.heard.toUInt64.toFloat :=
          div_le_self (by linarith) hleast
      _ < 2 ^ (66 : ℤ) := by norm_num; linarith
      _ ≤ 2 ^ (1023 : ℤ) := zpow_le_zpow_right₀ (by norm_num) (by norm_num)

theorem thousandths_eq (hpos : 0 < e.heard) (hmost : e.heard < 2 ^ 64)
    (hrate : rate ≠ 0) :
    (thousandths (e.line rate) : ℤ) =
      nearestInt (exact (e.time rate) * 10 ^ 3) := by
  rw [thousandths_line]
  exact Decimal.fixedUnits_eq (time_roundsTo hpos hmost hrate).normal 3

/-- A later event is never printed with an earlier time. -/
theorem thousandths_mono {later : TimedEvent} (hpos : 0 < e.heard)
    (hle : e.heard ≤ later.heard) (hmost : later.heard < 2 ^ 64)
    (hrate : rate ≠ 0) :
    thousandths (e.line rate) ≤ thousandths (later.line rate) := by
  have hmost' := hle.trans_lt hmost
  have hpos' := hpos.trans_le hle
  have hcount : exact e.heard.toUInt64.toFloat ≤
      exact later.heard.toUInt64.toFloat :=
    (Double.toFloat_roundsTo hpos hmost').mono
      (Double.toFloat_roundsTo hpos' hmost)
      (by exact_mod_cast hle)
  have htime : exact (e.time rate) ≤ exact (later.time rate) :=
    (time_roundsTo hpos hmost' hrate).mono (time_roundsTo hpos' hmost hrate)
      (div_le_div_of_nonneg_right hcount (Nat.cast_nonneg _))
  have hunits := Single.nearestInt_mono
    (mul_le_mul_of_nonneg_right htime (show (0 : ℚ) ≤ 10 ^ 3 by norm_num))
  rw [← thousandths_eq hpos hmost' hrate,
    ← thousandths_eq hpos' hmost hrate] at hunits
  exact_mod_cast hunits

/-- The thousandths that are printed are those of the exact quotient, up to half
a unit and what the two roundings make of it. -/
theorem abs_thousandths_sub_le (hpos : 0 < e.heard) (hmost : e.heard < 2 ^ 64)
    (hrate : rate ≠ 0) :
    |(thousandths (e.line rate) : ℚ) - 1000 * (e.heard / rate.toNat)| ≤
      1 / 2 + 1000 * (e.heard / rate.toNat) / 2 ^ 51 := by
  have hrate' : (0 : ℚ) < rate.toNat := by
    exact_mod_cast toNat_pos_of_ne_zero hrate
  have hquotient := (time_roundsTo hpos hmost hrate).error
  have hcount :=
    div_le_div_of_nonneg_right (Double.toFloat_roundsTo hpos hmost).error
      hrate'.le
  have hunits := Single.abs_nearestInt_sub_le (exact (e.time rate) * 10 ^ 3)
  rw [← thousandths_eq hpos hmost hrate, Int.cast_natCast] at hunits
  rw [← abs_of_pos hrate', ← abs_div, abs_of_pos hrate', sub_div,
    div_right_comm] at hcount
  change |exact (e.time rate) - _| ≤ _ at hquotient
  change |exact e.heard.toUInt64.toFloat / _ - _| ≤ _ at hcount
  have hnonneg : (0 : ℚ) ≤ e.heard / rate.toNat := by positivity
  generalize (e.heard : ℚ) / rate.toNat = q at *
  generalize exact e.heard.toUInt64.toFloat / rate.toNat = p at *
  rw [abs_le] at hunits hquotient hcount ⊢
  constructor
  · linarith
  · linarith

end Times

end PitchFollower.Session
