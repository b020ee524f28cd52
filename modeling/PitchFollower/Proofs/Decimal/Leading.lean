import PitchFollower.Decimal.Scaling
import PitchFollower.Proofs.Decimal.Digits

/-!
# Leading digits

A word of 64 bits holds the leading digits of a numeral.  If it has no room for
one more digit it is not small, so whatever is left out changes the value by
little.  This also holds where digits before the point are left out and digits
behind it are not.
-/

namespace PitchFollower.Decimal

/-! ## Digits appended to a word -/

/-- The least word of 64 bits to which a digit may be one too many. -/
def leastFull : ℕ := 1844674407370955161

theorem appendDigit?_of_le
    {n : ℕ} {c : Char} (h : 10 * n + digitValue c ≤ 18446744073709551615) :
    appendDigit? n c = some (10 * n + digitValue c) :=
  if_pos h

theorem appendDigit?_of_lt
    {n : ℕ} {c : Char} (h : 18446744073709551615 < 10 * n + digitValue c) :
    appendDigit? n c = none :=
  if_neg (Nat.not_le.mpr h)

theorem append_nil (n : ℕ) :
    10 ^ ([] : List Char).length * n + ofDigits [] = n :=
  Nat.one_mul n

theorem append_cons (n : ℕ) (c : Char) (ds : List Char) :
    10 ^ (c :: ds).length * n + ofDigits (c :: ds) =
      10 ^ ds.length * (10 * n + digitValue c) + ofDigits ds := by
  rw [ofDigits_cons, List.length_cons, pow_succ]
  ring

/-- No digit is left out if 64 bits hold the whole number. -/
theorem appendDigits_eq {n : ℕ} {ds : List Char}
    (h : 10 ^ ds.length * n + ofDigits ds ≤ 18446744073709551615) :
    appendDigits n ds = (10 ^ ds.length * n + ofDigits ds, []) := by
  induction ds generalizing n with
  | nil =>
    rw [append_nil]
    rfl
  | cons c ds ih =>
    have hlong := (append_cons n c ds).symm.trans_le h
    have hshort : 10 * n + digitValue c ≤ 18446744073709551615 :=
      (Nat.le_mul_of_pos_left _ (Nat.pow_pos (by norm_num))).trans
        ((Nat.le_add_right _ _).trans hlong)
    rw [append_cons, appendDigits_cons ds (appendDigit?_of_le hshort)]
    exact ih hlong

/-- The digits are appended in order, and if some of them are left out the word
is not small. -/
theorem exists_taken {n : ℕ} {ds : List Char} (hn : n ≤ 18446744073709551615)
    (hds : ∀ c ∈ ds, c.isDigit = true) :
    ∃ taken leftOut, ds = taken ++ leftOut ∧
      appendDigits n ds = (10 ^ taken.length * n + ofDigits taken, leftOut) ∧
      10 ^ taken.length * n + ofDigits taken ≤ 18446744073709551615 ∧
      (leftOut ≠ [] → leastFull ≤ 10 ^ taken.length * n + ofDigits taken) := by
  induction ds generalizing n with
  | nil =>
    exact ⟨[], [], rfl, by rw [append_nil]; rfl, by rwa [append_nil],
      (absurd rfl ·)⟩
  | cons c ds ih =>
    rcases le_or_gt (10 * n + digitValue c) 18446744073709551615 with
      hroom | hfull
    · have hrest (d : Char) (hd : d ∈ ds) := hds d (List.mem_cons_of_mem c hd)
      obtain ⟨taken, leftOut, rfl, happend, hle, hleast⟩ := ih hroom hrest
      refine ⟨c :: taken, leftOut, rfl, ?_, ?_, ?_⟩
      · rw [appendDigits_cons _ (appendDigit?_of_le hroom), happend,
          append_cons]
      · rwa [append_cons]
      · rwa [append_cons]
    · have hdigit := digitValue_lt (hds c List.mem_cons_self)
      refine ⟨[], c :: ds, rfl, ?_, by rwa [append_nil], fun _ => ?_⟩
      · rw [append_nil, appendDigits_of_none ds (appendDigit?_of_lt hfull)]
      · rw [append_nil, leastFull]
        omega

/-! ## The value of the leading digits -/

/-- All digits count if 64 bits hold the number they write. -/
theorem leading_eq {whole fraction : List Char} {exponent : ℤ}
    (h : ofDigits (whole ++ fraction) ≤ 18446744073709551615) :
    leading whole fraction exponent =
      Numeral.decimalOf whole fraction exponent := by
  rw [ofDigits_append] at h
  have hpow : 1 ≤ 10 ^ fraction.length := Nat.one_le_pow _ _ (by norm_num)
  have hwhole : 10 ^ whole.length * 0 + ofDigits whole ≤
      18446744073709551615 := by
    have := Nat.le_mul_of_pos_left (ofDigits whole) hpow
    omega
  have hfraction := appendDigits_eq h
  rw [leading, appendDigits_eq hwhole, mul_zero, zero_add]
  simp only [hfraction, List.length_nil, Nat.sub_zero, Numeral.decimalOf,
    ofDigits_append]
  simp

/-- Digits behind a number make up less than one of its units. -/
theorem value_append_bounds (xs : List Char) {ys : List Char} {j k : ℤ}
    (hys : ∀ c ∈ ys, c.isDigit = true) (hj : j = k + ys.length) :
    (ofDigits xs : ℚ) * 10 ^ j ≤ value ⟨ofDigits (xs ++ ys), k⟩ ∧
      value ⟨ofDigits (xs ++ ys), k⟩ < (ofDigits xs + 1) * 10 ^ j := by
  have hlt : (ofDigits ys : ℚ) < 10 ^ ys.length := by
    exact_mod_cast ofDigits_lt_pow hys
  have hnonneg : (0 : ℚ) ≤ ofDigits ys := Nat.cast_nonneg _
  have hpos := ten_zpow_pos k
  rw [hj, zpow_add₀ (by norm_num), zpow_natCast, value, ofDigits_append,
    mul_comm (10 ^ k), ← mul_assoc, ← mul_assoc]
  push_cast
  constructor
  · exact mul_le_mul_of_nonneg_right (by linarith) hpos.le
  · exact mul_lt_mul_of_pos_right (by linarith) hpos

/-- Two values with the same count of units are close if there are many
units. -/
theorem abs_sub_le_of_units {n : ℕ} {u a b : ℚ} (hu : 0 < u)
    (hn : leastFull ≤ n) (ha : n * u ≤ a ∧ a < (n + 1) * u)
    (hb : n * u ≤ b ∧ b < (n + 1) * u) : |a - b| ≤ b / leastFull := by
  have hn' : (leastFull : ℚ) ≤ n := by exact_mod_cast hn
  have hpos : (0 : ℚ) < leastFull := by norm_num [leastFull]
  have hunit : |a - b| ≤ u := by
    rw [abs_le]
    constructor <;> linarith
  refine hunit.trans ((le_div_iff₀ hpos).mpr ?_)
  calc u * leastFull ≤ u * n := mul_le_mul_of_nonneg_left hn' hu.le
    _ = n * u := mul_comm _ _
    _ ≤ b := hb.1

section Leading

variable {whole fraction : List Char}

/-- The leading digits fit into 64 bits, and what is left out hardly changes the
value. -/
theorem leading_spec (exponent : ℤ)
    (hdigits : ∀ c ∈ whole ++ fraction, c.isDigit = true) :
    (leading whole fraction exponent).significand ≤ 18446744073709551615 ∧
      |(Numeral.decimalOf whole fraction exponent).value -
          (leading whole fraction exponent).value| ≤
        (leading whole fraction exponent).value / leastFull := by
  have hwholedigits (c : Char) (hc : c ∈ whole) :=
    hdigits c (List.mem_append_left _ hc)
  have hfractiondigits (c : Char) (hc : c ∈ fraction) :=
    hdigits c (List.mem_append_right _ hc)
  obtain ⟨w, l, rfl, hwhole, hwmost, hwleast⟩ :=
    exists_taken (Nat.zero_le _) hwholedigits
  rw [mul_zero, zero_add] at hwhole hwmost hwleast
  obtain ⟨f, g, rfl, hfraction, hfmost, hfleast⟩ :=
    exists_taken hwmost hfractiondigits
  rw [← ofDigits_append] at hfraction hfmost hfleast
  have hf (c : Char) (hc : c ∈ f) :=
    hfractiondigits c (List.mem_append_left _ hc)
  have hg (c : Char) (hc : c ∈ g) :=
    hfractiondigits c (List.mem_append_right _ hc)
  have hl (c : Char) (hc : c ∈ l) := hwholedigits c (List.mem_append_right _ hc)
  have hleading : leading (w ++ l) (f ++ g) exponent =
      ⟨ofDigits (w ++ f), exponent + l.length - f.length⟩ := by
    simp only [leading, hwhole, hfraction, List.length_append,
      Nat.add_sub_cancel]
  rw [hleading, Numeral.decimalOf, List.length_append]
  refine ⟨hfmost, ?_⟩
  rcases eq_or_ne l [] with rfl | hwcut
  · rcases eq_or_ne g [] with rfl | hfcut
    · have hpos : (0 : ℚ) ≤ leastFull := Nat.cast_nonneg _
      simp only [List.append_nil, List.length_nil, add_zero, Nat.cast_zero,
        sub_self, abs_zero]
      exact div_nonneg (value_nonneg _) hpos
    · have hwritten := value_append_bounds (w ++ f) hg
        (show exponent - f.length = exponent - (f.length + g.length : ℕ) +
          g.length by
          push_cast
          ring)
      have hunit := ten_zpow_pos (exponent - f.length)
      rw [List.append_assoc] at hwritten
      simp only [List.append_nil, List.length_nil, Nat.cast_zero, add_zero]
      refine abs_sub_le_of_units hunit (hfleast hfcut) hwritten ⟨le_rfl, ?_⟩
      exact mul_lt_mul_of_pos_right (lt_add_one _) hunit
  · have hrest : ∀ c ∈ l ++ (f ++ g), c.isDigit = true := by
      intro c hc
      rcases List.mem_append.mp hc with hc | hc
      · exact hl c hc
      · exact hfractiondigits c hc
    have hwritten := value_append_bounds w hrest
      (show exponent + l.length =
          exponent - (f.length + g.length : ℕ) + (l ++ (f ++ g)).length by
        simp only [List.length_append]
        push_cast
        ring)
    have hkept := value_append_bounds w hf
      (show exponent + l.length = exponent + l.length - f.length +
        f.length by ring)
    rw [← List.append_assoc] at hwritten
    exact abs_sub_le_of_units (ten_zpow_pos _) (hwleast hwcut) hwritten hkept

end Leading

end PitchFollower.Decimal
