import PitchFollower.Proofs.Single.Exact

/-!
# Rounding by mantissas

Rounding a triple shifts its mantissa to the right and keeps two bits of what is
shifted out.  This module gives the mantissa with its two bits an exact meaning,
shows that every shift halves it, and concludes that rounding a triple gives a
canonical triple for the nearest number.
-/

namespace PitchFollower.Single

open Float.Model (Format UnpackedFloat totalExponent)
open Float.Model.UnpackedFloat

/-! ## Mantissas with two residual bits -/

/-- The exact numbers that a mantissa with two residual bits stands for. -/
def StandsFor (em : ExtendedMantissa) (q : ℚ) : Prop :=
  match em.roundBit, em.stickyBit with
  | false, false => q = em.mantissa
  | false, true => em.mantissa < q ∧ q < em.mantissa + 1 / 2
  | true, false => q = em.mantissa + 1 / 2
  | true, true => em.mantissa + 1 / 2 < q ∧ q < em.mantissa + 1

theorem StandsFor.floor_eq
    {em : ExtendedMantissa} {q : ℚ} (h : StandsFor em q) :
    ⌊q⌋ = em.mantissa := by
  obtain ⟨m, round, sticky⟩ := em
  rw [Int.floor_eq_iff]
  cases round <;> cases sticky <;>
    simp only [StandsFor, Int.cast_natCast] at h ⊢ <;>
    constructor <;> linarith

theorem StandsFor.roundedMantissa_eq
    {em : ExtendedMantissa} {q : ℚ} (h : StandsFor em q) :
    (em.roundedMantissa : ℤ) = nearestInt q := by
  have hfloor := h.floor_eq
  obtain ⟨m, round, sticky⟩ := em
  unfold nearestInt
  rw [hfloor]
  cases round <;> cases sticky <;>
    simp only [StandsFor, ExtendedMantissa.roundedMantissa,
      ExtendedMantissa.accuracy, Accuracy.roundToNearestEven,
      Int.cast_natCast] at h ⊢ <;>
    split_ifs <;> first | omega | (exfalso; linarith)

theorem StandsFor.shiftRightOne
    {em : ExtendedMantissa} {q : ℚ} (h : StandsFor em q) :
    StandsFor em.shiftRightOne (q / 2) := by
  obtain ⟨m, round, sticky⟩ := em
  have hm : (m : ℚ) = 2 * (m / 2 : ℕ) + (m % 2 : ℕ) := by
    exact_mod_cast (Nat.div_add_mod m 2).symm
  rcases Nat.mod_two_eq_zero_or_one m with hbit | hbit <;> cases round <;>
    cases sticky <;>
    simp [StandsFor, ExtendedMantissa.shiftRightOne, hbit] at h hm ⊢ <;>
    first | linarith | (constructor <;> linarith)

theorem StandsFor.shiftRight
    {em : ExtendedMantissa} {q : ℚ} (h : StandsFor em q) (n : ℕ) :
    StandsFor (em >>> n) (q / 2 ^ n) := by
  change StandsFor (n.repeat ExtendedMantissa.shiftRightOne em) _
  induction n with
  | zero => simpa [Nat.repeat] using h
  | succ n ih =>
    rw [Nat.repeat, pow_succ, ← div_div]
    exact ih.shiftRightOne

theorem standsFor_exact (m : ℕ) :
    StandsFor (.ofMantissaAndAccuracy m .exact) m := by
  simp [StandsFor, ExtendedMantissa.ofMantissaAndAccuracy]

/-! ## The place that is rounded to -/

theorem targetExponent_eq (m : ℕ) (e : ℤ) :
    Format.binary32.targetExponent (totalExponent m e) =
      max (m.log2 + e - 23) (-149) := by
  simp only [Format.targetExponent, totalExponent, Binary.mantissaBits_eq,
    Format.minExponent]
  norm_num
  omega

theorem log_eq_log2
    {m : ℕ} {q : ℚ} (hm : m ≠ 0) (hfloor : ⌊q⌋ = (m : ℤ)) :
    Int.log 2 q = m.log2 := by
  have hbounds := Int.floor_eq_iff.mp hfloor
  have hm' : (1 : ℚ) ≤ m := by exact_mod_cast Nat.one_le_iff_ne_zero.mpr hm
  rw [Int.cast_natCast] at hbounds
  have hnat : ⌊q⌋₊ = m := by
    rw [← Int.floor_toNat, hfloor, Int.toNat_natCast]
  rw [Int.log_of_one_le_right _ (hm'.trans hbounds.1), hnat,
    Nat.log2_eq_log_two]

theorem log_mul_zpow {q : ℚ} (hq : 0 < q) (e : ℤ) :
    Int.log 2 (q * 2 ^ e) = Int.log 2 q + e := by
  have hpos : 0 < q * 2 ^ e := mul_pos hq (two_zpow_pos e)
  have hlow := Int.zpow_log_le_self (b := 2) (by norm_num) hq
  have hhigh := Int.lt_zpow_succ_log_self (b := 2) (by norm_num) q
  apply le_antisymm
  · rw [← Int.lt_add_one_iff, ← Int.lt_zpow_iff_log_lt (by norm_num) hpos,
      Nat.cast_ofNat, add_right_comm, zpow_add₀ (by norm_num)]
    exact mul_lt_mul_of_pos_right (by exact_mod_cast hhigh) (two_zpow_pos e)
  · rw [← Int.zpow_le_iff_le_log (by norm_num) hpos, Nat.cast_ofNat,
      zpow_add₀ (by norm_num)]
    exact mul_le_mul_of_nonneg_right (by exact_mod_cast hlow)
      (two_zpow_pos e).le

/-- The place chosen from a mantissa is the last place of the exact number. -/
theorem targetExponent_eq_lastPlace {m : ℕ} {e : ℤ} {q : ℚ} (hq : 0 < q)
    (hfloor : ⌊q⌋ = (m : ℤ)) (hfull : m ≠ 0 ∨ e ≤ -149) :
    Format.binary32.targetExponent (totalExponent m e) =
      lastPlace (q * 2 ^ e) := by
  rw [targetExponent_eq, lastPlace, abs_of_pos (mul_pos hq (two_zpow_pos e)),
    log_mul_zpow hq]
  by_cases hm : m = 0
  · have hlog : Int.log 2 q < 1 := by
      rw [← Int.lt_zpow_iff_log_lt (by norm_num) hq]
      have := Int.lt_floor_add_one q
      rw [hfloor, hm] at this
      norm_num at this ⊢
      linarith
    have he := hfull.resolve_left (not_not.mpr hm)
    simp only [hm, Nat.log2_zero]
    omega
  · rw [log_eq_log2 hm hfloor]

/-! ## Rounding a triple -/

theorem mul_zpow_div_zpow
    (q : ℚ) {e t : ℤ} {k : ℕ} (hk : t - e = k) :
    q * 2 ^ e / 2 ^ t = q / 2 ^ k := by
  obtain rfl : t = e + k := by omega
  rw [zpow_add₀ (by norm_num), zpow_natCast, mul_comm,
    mul_div_mul_left _ _ (two_zpow_pos e).ne']

/-- The nearest number to a positive one has a mantissa that fills its places,
and may have become one bit too long. -/
theorem mantissa_bounds_of_nearest
    {q : ℚ} {n : ℕ} (hq : 0 < q) (hnearest : nearest q = n * 2 ^ lastPlace q) :
    n ≤ 2 ^ 24 ∧ (2 ^ 23 ≤ n ∨ lastPlace q = -149) := by
  have hpow := two_zpow_pos (lastPlace q)
  refine ⟨?_, or_iff_not_imp_right.mpr fun hsub => ?_⟩
  · have hle := nearest_le_zpow (q := q) rfl
    rw [hnearest, zpow_add₀ (by norm_num), mul_comm,
      mul_le_mul_iff_of_pos_left hpow] at hle
    exact_mod_cast hle
  · have hleast : -149 < lastPlace q :=
      lt_of_le_of_ne (le_max_right _ _) (Ne.symm hsub)
    have hle := zpow_le_nearest hq rfl hleast
    rw [hnearest, zpow_add₀ (by norm_num), mul_comm,
      mul_le_mul_iff_of_pos_right hpow] at hle
    exact_mod_cast hle

/-- Rounding a mantissa with its accuracy gives the nearest number.  The
mantissa is zero, or it fits, or it has become one bit too long. -/
theorem isNearest_roundWithAccuracy {s : Sign} {m : ℕ} {e : ℤ} {acc : Accuracy}
    {q : ℚ} (hq : 0 < q) (hstands : StandsFor (.ofMantissaAndAccuracy m acc) q)
    (hfull : m ≠ 0 ∨ e ≤ -149) (hplace : e ≤ lastPlace (q * 2 ^ e)) :
    IsNearest (roundWithAccuracy .binary32 s m e acc)
      (signed s (q * 2 ^ e)) := by
  obtain ⟨k, hk⟩ := Int.eq_ofNat_of_zero_le (sub_nonneg.mpr hplace)
  have hfloor := hstands.floor_eq
  rw [Binary.mantissa_ofMantissaAndAccuracy] at hfloor
  have hshift := Binary.shiftToTargetExponent_eq acc hk
    (targetExponent_eq_lastPlace hq hfloor hfull)
  have hround := (hstands.shiftRight k).roundedMantissa_eq
  rw [← mul_zpow_div_zpow q hk] at hround
  generalize hN :
    (ExtendedMantissa.ofMantissaAndAccuracy m acc >>> k).roundedMantissa = n
    at hround
  have hnearest : nearest (q * 2 ^ e) = n * 2 ^ lastPlace (q * 2 ^ e) := by
    rw [nearest, ← hround, Int.cast_natCast]
  obtain ⟨hn, hlow⟩ :=
    mantissa_bounds_of_nearest (mul_pos hq (two_zpow_pos e)) hnearest
  have hleast : -149 ≤ lastPlace (q * 2 ^ e) := le_max_right _ _
  have hcases : roundWithAccuracy .binary32 s m e acc =
      if h : n = 0 then .zero s
      else if n < 2 ^ 24 then
        .finite s n (lastPlace (q * 2 ^ e)) (Nat.pos_of_ne_zero h)
      else .finite s (2 ^ 23) (lastPlace (q * 2 ^ e) + 1)
        (Nat.two_pow_pos 23) :=
    Binary.roundWithAccuracy_eq hleast (congrArg Prod.snd hshift)
      (by rw [hshift]; exact hN) hn
  rw [hcases]
  by_cases hzero : n = 0
  · rw [dif_pos hzero]
    refine ⟨trivial, rfl, ?_⟩
    rw [exactOf_zero, nearest_signed, hnearest, hzero]
    cases s <;> simp [signed]
  rw [dif_neg hzero]
  by_cases hlt : n < 2 ^ 24
  · rw [if_pos hlt]
    refine ⟨⟨hlt, hleast, hlow⟩, rfl, ?_⟩
    rw [nearest_signed, hnearest, exactOf_finite]
  · rw [if_neg hlt]
    obtain rfl : n = 2 ^ 24 := by omega
    refine ⟨⟨by norm_num, by omega, by norm_num⟩, rfl, ?_⟩
    rw [nearest_signed, hnearest, exactOf_finite, zpow_add₀ (by norm_num)]
    push_cast
    ring_nf

theorem decreaseExponent_fst
    {e t : ℤ} {k : ℕ} (m : ℕ) (hk : (e - t).toNat = k) :
    (decreaseExponent m e t).1 = m * 2 ^ k := by
  simp [decreaseExponent, hk, Nat.shiftLeft_eq]

theorem mul_pow_mul_zpow_sub (q : ℚ) (e : ℤ) (k : ℕ) :
    q * 2 ^ k * 2 ^ (e - k) = q * 2 ^ e := by
  rw [zpow_sub₀ (by norm_num), zpow_natCast]
  field_simp

/-- Rounding a triple gives the nearest number, whatever its exponent is. -/
theorem isNearest_round
    (s : Sign) {m : ℕ} (e : ℤ) (hm : 0 < m) :
    IsNearest (UnpackedFloat.round .binary32 s m e) (signed s (m * 2 ^ e)) := by
  have hpos : (0 : ℚ) < m := by exact_mod_cast hm
  have htarget :=
    targetExponent_eq_lastPlace (e := e) hpos (Int.floor_natCast m)
      (Or.inl hm.ne')
  unfold UnpackedFloat.round
  generalize hk : (e -
    Format.binary32.targetExponent (totalExponent m e)).toNat = k
  have hexact : ((m * 2 ^ k : ℕ) : ℚ) * 2 ^ (e - k) = m * 2 ^ e := by
    push_cast
    exact mul_pow_mul_zpow_sub m e k
  have hspec :=
    isNearest_roundWithAccuracy (s := s) (e := e - k) (by positivity)
    (standsFor_exact (m * 2 ^ k)) (Or.inl (by positivity))
    (by rw [hexact]; omega)
  simp only [decreaseExponent, hk, Nat.shiftLeft_eq]
  rwa [hexact] at hspec

theorem isNearest_normalize (m : ℤ) (e : ℤ) (zero : Sign) :
    IsNearest (UnpackedFloat.normalize .binary32 m e zero) (m * 2 ^ e) := by
  unfold UnpackedFloat.normalize
  rcases lt_trichotomy m 0 with hm | rfl | hm
  · rw [Int.compare_eq_lt.mpr hm]
    have hspec := isNearest_round .negative e (show 0 < (-m).toNat by omega)
    have hcast : (((-m).toNat : ℕ) : ℚ) = -m := by
      exact_mod_cast Int.toNat_of_nonneg (by omega : 0 ≤ -m)
    rwa [hcast, neg_mul, signed, neg_neg] at hspec
  · rw [Int.compare_eq_eq.mpr rfl, Int.cast_zero, zero_mul]
    exact isNearest_zero zero
  · rw [Int.compare_eq_gt.mpr hm]
    have hspec := isNearest_round .positive e (show 0 < m.toNat by omega)
    have hcast : ((m.toNat : ℕ) : ℚ) = m := by
      exact_mod_cast Int.toNat_of_nonneg hm.le
    rwa [hcast, signed] at hspec

/-! ## Quotients -/

theorem div_eq_add_rest
    (m : ℕ) {n : ℕ} (hn : 0 < n) :
    (m / n : ℚ) = (m / n : ℕ) + (m % n : ℕ) / n := by
  have hpos : (0 : ℚ) < n := by exact_mod_cast hn
  have hsplit : (m : ℚ) = n * (m / n : ℕ) + (m % n : ℕ) := by
    exact_mod_cast (Nat.div_add_mod m n).symm
  rw [div_eq_iff hpos.ne', add_mul, div_mul_cancel₀ _ hpos.ne']
  linarith

/-- The two residual bits of a quotient tell how twice the rest compares with
the divisor. -/
theorem standsFor_fraction (m : ℕ) {n : ℕ} (hn : 0 < n) :
    StandsFor (.ofMantissaAndAccuracy (m / n) (accuracyOfFraction (m % n) n))
      (m / n : ℚ) := by
  have hpos : (0 : ℚ) < n := by exact_mod_cast hn
  have hdiv := div_eq_add_rest m hn
  have hlt : (m % n : ℕ) / (n : ℚ) < 1 := by
    rw [div_lt_one hpos]
    exact_mod_cast Nat.mod_lt m hn
  unfold accuracyOfFraction
  split_ifs with hzero
  · simp [StandsFor, ExtendedMantissa.ofMantissaAndAccuracy, hdiv, hzero]
  · have hrest : 0 < (m % n : ℕ) / (n : ℚ) := by
      have : 0 < m % n := Nat.pos_of_ne_zero hzero
      positivity
    rcases lt_trichotomy (2 * (m % n)) n with h | h | h
    · have hhalf : (m % n : ℕ) / (n : ℚ) < 1 / 2 := by
        rw [div_lt_iff₀ hpos]
        have : (2 : ℚ) * (m % n : ℕ) < n := by exact_mod_cast h
        linarith
      rw [Nat.compare_eq_lt.mpr h]
      simp only [StandsFor, ExtendedMantissa.ofMantissaAndAccuracy, hdiv]
      constructor <;> linarith
    · have hhalf : (m % n : ℕ) / (n : ℚ) = 1 / 2 := by
        rw [div_eq_iff hpos.ne']
        have : (2 : ℚ) * (m % n : ℕ) = n := by exact_mod_cast h
        linarith
      rw [Nat.compare_eq_eq.mpr h]
      simp only [StandsFor, ExtendedMantissa.ofMantissaAndAccuracy, hdiv, hhalf]
    · have hhalf : 1 / 2 < (m % n : ℕ) / (n : ℚ) := by
        rw [lt_div_iff₀ hpos]
        have : (n : ℚ) < 2 * (m % n : ℕ) := by exact_mod_cast h
        linarith
      rw [Nat.compare_eq_gt.mpr h]
      simp only [StandsFor, ExtendedMantissa.ofMantissaAndAccuracy, hdiv]
      constructor <;> linarith

/-- The lengths of two mantissas give the length of their quotient but for one
place. -/
theorem log_div_bounds {m n : ℕ} (e f : ℤ) (hm : 0 < m) (hn : 0 < n) :
    (m.log2 + e) - (n.log2 + f) - 1 ≤
      Int.log 2 ((m * 2 ^ e : ℚ) / (n * 2 ^ f)) := by
  have hn' : (0 : ℚ) < n := by exact_mod_cast hn
  have hpos : (0 : ℚ) < (m * 2 ^ e) / (n * 2 ^ f) := by positivity
  have hlow : (2 : ℚ) ^ (m.log2 : ℤ) ≤ m := by
    exact_mod_cast Nat.log2_self_le hm.ne'
  have hhigh : (n : ℚ) ≤ 2 ^ ((n.log2 : ℤ) + 1) := by
    exact_mod_cast (Nat.lt_log2_self (n := n)).le
  rw [← Int.zpow_le_iff_le_log (by norm_num) hpos, Nat.cast_ofNat,
    le_div_iff₀ (by positivity)]
  calc (2 : ℚ) ^ ((m.log2 + e) - (n.log2 + f) - 1) * (n * 2 ^ f)
      ≤ 2 ^ ((m.log2 + e) - (n.log2 + f) - 1) *
        (2 ^ ((n.log2 : ℤ) + 1) * 2 ^ f) := by gcongr
    _ = 2 ^ (m.log2 : ℤ) * 2 ^ e := by
      rw [← zpow_add₀ (by norm_num), ← zpow_add₀ (by norm_num),
        ← zpow_add₀ (by norm_num)]
      congr 1
      ring
    _ ≤ m * 2 ^ e := by gcongr

/-- The dividend may be shifted before it is divided. -/
theorem div_mul_zpow
    (m : ℕ) {n k : ℕ} {e f t : ℤ} (hn : 0 < n) (ht : t = e - f - k) :
    ((m * 2 ^ k : ℕ) : ℚ) / n * 2 ^ t = m * 2 ^ e / (n * 2 ^ f) := by
  have hn' : (n : ℚ) ≠ 0 := by exact_mod_cast hn.ne'
  have hpow := (two_zpow_pos f).ne'
  rw [ht, zpow_sub₀ (by norm_num), zpow_sub₀ (by norm_num), zpow_natCast]
  push_cast
  field_simp

/-- A quotient has a mantissa if it is placed no higher than its length
allows. -/
theorem div_ne_zero_of_le_log {m n : ℕ} {t : ℤ} (hm : 0 < m) (hn : 0 < n)
    (ht : t ≤ Int.log 2 ((m : ℚ) / n * 2 ^ t)) : m / n ≠ 0 := by
  have hm' : (0 : ℚ) < m := by exact_mod_cast hm
  have hn' : (0 : ℚ) < n := by exact_mod_cast hn
  have hpos := two_zpow_pos t
  rw [← Int.zpow_le_iff_le_log (by norm_num) (by positivity), Nat.cast_ofNat,
    le_mul_iff_one_le_left hpos, one_le_div hn'] at ht
  exact (Nat.div_pos (by exact_mod_cast ht) hn).ne'

/-- A quotient of two mantissas, rounded, is the nearest number to the exact
quotient. -/
theorem isNearest_divCore
    (s : Sign) {m n : ℕ} (e f : ℤ) (hm : 0 < m) (hn : 0 < n) :
    let quotient := divCore .binary32 m e n f
    IsNearest
      (roundWithAccuracy .binary32 s quotient.1 quotient.2.1 quotient.2.2)
      (signed s ((m * 2 ^ e) / (n * 2 ^ f))) := by
  have hn' : (0 : ℚ) < n := by exact_mod_cast hn
  have hlog := log_div_bounds e f hm hn
  simp only [divCore]
  have htarget :
      Format.binary32.targetExponent (totalExponent m e - totalExponent n f) =
        max ((m.log2 + e) - (n.log2 + f) - 24) (-149) := by
    simp only [Format.targetExponent, totalExponent, Binary.mantissaBits_eq,
      Format.minExponent]
    norm_num
    omega
  generalize ht : min (e - f)
    (Format.binary32.targetExponent (totalExponent m e - totalExponent n f)) = t
  rw [htarget] at ht
  generalize hk : (e - f - t).toNat = k
  rw [Nat.shiftLeft_eq]
  have hexact := div_mul_zpow m hn (show t = e - f - k by omega)
  have hplace : t ≤ lastPlace (m * 2 ^ e / (n * 2 ^ f)) := by
    rw [lastPlace, abs_of_pos (by positivity)]
    omega
  have hfull : m * 2 ^ k / n ≠ 0 ∨ t ≤ -149 := by
    by_cases hleast : t ≤ -149
    · exact Or.inr hleast
    · exact Or.inl
        (div_ne_zero_of_le_log (by positivity) hn (by rw [hexact]; omega))
  have hspec :=
    isNearest_roundWithAccuracy (s := s) (e := t)
      (q := ((m * 2 ^ k : ℕ) : ℚ) / n)
    (by positivity) (standsFor_fraction (m * 2 ^ k) hn) hfull (by rwa [hexact])
  rwa [hexact] at hspec

end PitchFollower.Single
