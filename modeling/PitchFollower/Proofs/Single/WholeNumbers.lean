import PitchFollower.Proofs.Single.Cosine
import PitchFollower.Proofs.Single.Monotone

/-!
# Whole numbers near a number

The floor is computed from the whole part within a range, and stays within it
for whatever it is taken of.  Rounding to a whole number adds half a unit and
cuts off the fraction.  The sum is rounded on the way and may reach the next
whole number too early, but only from just below one half, where what is left to
the whole number is rounded to one half again.  So what rounding takes away is
never more than one half.
-/

namespace PitchFollower.Single

/-! ## Halves added -/

section Halves

variable {a : ℚ} {n : ℕ}

theorem onGrid_half : OnGrid (1 / 2) := by
  simpa using onGrid_zpow (e := -1) (by norm_num)

theorem OnPlace.zpow_le {t : ℤ} {q : ℚ} (h : OnPlace t q) (hpos : 0 < q) :
    2 ^ t ≤ q := by
  obtain ⟨k, rfl⟩ := h
  have hk : 0 < k := by
    exact_mod_cast (mul_pos_iff_of_pos_right (two_zpow_pos t)).mp hpos
  exact le_mul_of_one_le_left (two_zpow_pos t).le (by exact_mod_cast hk)

theorem lastPlace_natCast_le (hmost : n ≤ 2 ^ 22) : lastPlace n ≤ -1 := by
  apply lastPlace_le _ (by norm_num)
  rw [abs_of_nonneg (Nat.cast_nonneg n)]
  norm_num
  exact_mod_cast hmost.trans_lt (by norm_num)

/-- The last place of a whole number is the last place of the numbers up to the
next half. -/
theorem OnGrid.le_half_sub (ha : OnGrid a) (hn : 1 ≤ n) (hmost : n ≤ 2 ^ 22)
    (hlt : a < n + 1 / 2) : a ≤ n + 1 / 2 - 2 ^ lastPlace n := by
  have hpos : (0 : ℚ) < n := by exact_mod_cast hn
  have hplace := lastPlace_natCast_le hmost
  rcases le_or_gt a n with hle | hgt
  · have hhalf : (2 : ℚ) ^ lastPlace n ≤ 2 ^ (-1 : ℤ) :=
      zpow_le_zpow_right₀ (by norm_num) hplace
    norm_num at hhalf
    linarith
  · have hhalf : OnPlace (lastPlace n) (1 / 2) :=
      OnPlace.mono ⟨1, by norm_num⟩ hplace
    have hbetween : OnPlace (lastPlace n) (n + 1 / 2 - a) :=
      ((onPlace_natCast (hplace.trans (by norm_num)) n).add hhalf).sub
        (ha.onPlace.mono (lastPlace_mono hpos hgt.le))
    have hdistance := hbetween.zpow_le (by linarith)
    linarith

/-- From one half on the sum does not reach a whole number that the exact sum
does not reach. -/
theorem OnGrid.nearest_add_half_lt (ha : OnGrid a) (hn : 1 ≤ n)
    (hmost : n ≤ 2 ^ 22) (hlt : a < n + 1 / 2) :
    nearest (a + 1 / 2) < n + 1 := by
  have hone : (1 : ℚ) ≤ n := by exact_mod_cast hn
  have hplace := abs_lt_zpow_lastPlace (n : ℚ)
  have hstep := ha.le_half_sub hn hmost hlt
  have hlow : -23 ≤ lastPlace n := lastPlace_one ▸ lastPlace_mono one_pos hone
  have hhigh : lastPlace n ≤ -1 := lastPlace_natCast_le hmost
  have hpos := two_zpow_pos (lastPlace n)
  have hwhole : (n : ℚ) + 1 ≤ 2 ^ (lastPlace n + 24) := by
    obtain ⟨k, hk⟩ := Int.eq_ofNat_of_zero_le (by omega : 0 ≤ lastPlace n + 24)
    rw [hk, zpow_natCast, abs_of_pos (by linarith)] at hplace
    rw [hk, zpow_natCast]
    exact_mod_cast Nat.succ_le_of_lt (by exact_mod_cast hplace)
  have hgrid : OnGrid (n + 1 - 2 ^ lastPlace n) := by
    have hmultiple :
        OnPlace (lastPlace n) (((n + 1 : ℕ) : ℚ) - 2 ^ lastPlace n) :=
      (onPlace_natCast (by omega) (n + 1)).sub ⟨1,
        by rw [Int.cast_one, one_mul]⟩
    rw [Nat.cast_succ] at hmultiple
    have hleast : (0 : ℚ) ≤ n + 1 - 2 ^ lastPlace n := by
      have : (2 : ℚ) ^ lastPlace n ≤ 1 :=
        zpow_le_one_of_nonpos₀ (by norm_num) (by omega)
      linarith
    apply hmultiple.onGrid (by omega)
    rw [abs_of_nonneg hleast]
    linarith
  have hbelow := hgrid.nearest_le (q := a + 1 / 2) (by linarith)
  linarith

/-- Below one half the sum may reach one, but what is then missing to one is
rounded to one half. -/
theorem abs_nearest_sub_one_le (hnonneg : 0 ≤ a) (hlt : a < 1 / 2)
    (hone : nearest (a + 1 / 2) = 1) : |nearest (a - 1)| ≤ 1 / 2 := by
  have herror :=
    abs_nearest_sub_le_of_abs_le (q := a + 1 / 2) (t := -24) (by norm_num)
    (by rw [abs_of_nonneg (by linarith)]; norm_num; linarith)
  rw [hone, abs_of_nonneg (by linarith)] at herror
  have htie : nearest ((2 ^ 24 + 1) * 2 ^ (-25 : ℤ)) = 1 / 2 := by
    rw [nearest_most_succ_mul_zpow (by norm_num)]
    norm_num
  rw [← htie]
  apply abs_nearest_le_nearest
  rw [abs_of_neg (by linarith)]
  norm_num at herror ⊢
  linarith

/-- A number is at most a half from the whole part of its rounded sum with a
half, even where the sum has been rounded up to the next whole number. -/
theorem OnGrid.abs_nearest_sub_floor_le (ha : OnGrid a) (hnonneg : 0 ≤ a)
    (hmost : a ≤ 2 ^ 22) : |nearest (a - ⌊nearest (a + 1 / 2)⌋)| ≤ 1 / 2 := by
  obtain ⟨n, hn⟩ :=
    Int.eq_ofNat_of_zero_le (Int.floor_nonneg.mpr (by linarith : 0 ≤ a + 1 / 2))
  obtain ⟨hlow, hhigh⟩ := Int.floor_eq_iff.mp hn
  rw [Int.cast_natCast] at hlow hhigh
  have hsmall : n ≤ 2 ^ 22 := by
    have hcast : (n : ℚ) < (2 ^ 22 + 1 : ℕ) := by
      push_cast
      linarith
    have : n < 2 ^ 22 + 1 := by exact_mod_cast hcast
    omega
  have hleast : (n : ℚ) ≤ nearest (a + 1 / 2) :=
    (onGrid_natCast (hsmall.trans_lt (by norm_num))).le_nearest hlow
  have hreach : OnGrid ((n + 1 : ℕ) : ℚ) := onGrid_natCast (by omega)
  have hclose : nearest (a + 1 / 2) ≤ n + 1 := by
    exact_mod_cast hreach.nearest_le (by push_cast; exact hhigh.le)
  rcases hclose.lt_or_eq with hlt | heq
  · have hfloor : ⌊nearest (a + 1 / 2)⌋ = n :=
      Int.floor_eq_iff.mpr ⟨by exact_mod_cast hleast, by exact_mod_cast hlt⟩
    rw [hfloor, Int.cast_natCast]
    have hdiff : |a - n| ≤ 1 / 2 := by
      rw [abs_le]
      constructor <;> linarith
    simpa only [nearest_of_onGrid onGrid_half]
      using abs_nearest_le_nearest hdiff
  · obtain rfl : n = 0 := by
      by_contra hne
      exact (ha.nearest_add_half_lt (Nat.one_le_iff_ne_zero.mpr hne) hsmall
        (by linarith)).ne heq
    rw [Nat.cast_zero, zero_add] at heq
    rw [heq, Int.floor_one, Int.cast_one]
    exact abs_nearest_sub_one_le hnonneg (by norm_num at hhigh; linarith) heq

end Halves

namespace Approximate

/-! ## The approximate floor -/

/-- The floor of whatever it is taken of is a number, because it stays within a
range. -/
theorem isFinite_floor (x : Float32) : (floor x).isFinite = true := by
  have hrange : |wholePart32 x| ≤ 2 ^ 31 := by
    rw [wholePart32, wholePartWithin, abs_le]
    omega
  obtain ⟨hfinite, hexact⟩ := ofInt_nearest (natAbs_wholePart32_lt x)
  have hend : OnGrid (2 ^ (31 : ℤ)) := onGrid_zpow (by norm_num)
  have hwhole : Within (2 ^ (31 : ℤ)) (ofInt (wholePart32 x)) := by
    refine ⟨hfinite, ?_⟩
    rw [hexact, ← nearest_of_onGrid hend]
    exact abs_nearest_le_nearest (by exact_mod_cast hrange)
  unfold floor
  dsimp only
  split_ifs
  · have hone : Within 1 1 := ⟨rfl, by rw [exact_one, abs_one]⟩
    have hbelow : Within (2 ^ (32 : ℤ)) (ofInt (wholePart32 x) - 1) :=
      hwhole.sub hone (onGrid_zpow (by norm_num)) (by norm_num) (by norm_num)
    exact hbelow.isFinite
  · exact hfinite

theorem wholePart64_floor {x : Float32} (hx : x.isFinite = true)
    (hmost : |exact x| < 2 ^ 23) : wholePart64 (floor x) = ⌊exact x⌋ := by
  obtain ⟨hfinite, hexact⟩ := floor_finite hx hmost
  have hrange : |⌊exact x⌋| ≤ 2 ^ 23 := by
    rw [abs_lt] at hmost
    rw [abs_le]
    exact ⟨Int.le_floor.mpr (by push_cast; exact hmost.1.le),
      Int.floor_le_iff.mpr (by push_cast; linarith)⟩
  have hwhole := wholePart_eq hfinite (by
    rw [hexact]
    exact (show |(⌊exact x⌋ : ℚ)| ≤ 2 ^ 23 by exact_mod_cast hrange).trans_lt
      (by norm_num))
  rw [hexact, Int.ceil_intCast, Int.floor_intCast, ite_self] at hwhole
  rw [abs_le] at hrange
  rw [wholePart64, wholePartWithin, hwhole]
  omega

/-! ## The approximate rounding -/

section Round

variable {x : Float32}

/-- Rounding to a whole number keeps the sign and cuts off the fraction of the
sum. -/
theorem exact_round_eq (hx : Within (2 ^ 22) x) :
    (round x).isFinite = true ∧ ∃ s, exact x = signed s |exact x| ∧
      exact (round x) = signed s ⌊nearest (|exact x| + 1 / 2)⌋ := by
  have hsum :=
    hx.add (within_withSignOf_half x) (onGrid_zpow (e := 23) (by norm_num))
    (by norm_num) (by norm_num)
  have hexact :=
    (add_roundsTo hx.isFinite (within_withSignOf_half x).isFinite).exact_eq
      hsum.isFinite
  have hpos : 0 < nearest (|exact x| + 1 / 2) := by
    have hle :=
      onGrid_half.le_nearest (le_add_of_nonneg_left (abs_nonneg (exact x)))
    linarith
  have hlt := abs_wholePart32_lt hsum.isFinite (n := 2 ^ 23 + 1) (by norm_num)
    (hsum.abs_le.trans_lt (by norm_num))
  have hwhole :=
    wholePart32_eq hsum.isFinite (hsum.abs_le.trans_lt (by norm_num))
  obtain ⟨hfinite, hround⟩ := ofInt_finite (hlt.le.trans (by norm_num))
  refine ⟨hfinite, ?_⟩
  rcases withSignOf_half_cases x with ⟨hhalf, hsign⟩ | ⟨hhalf, hsign⟩
  · have habs : exact x = -|exact x| := by
      rw [← exact_abs, ← exact_neg, ← hsign]
    refine ⟨.negative, habs, hround.trans ?_⟩
    have hminus : exact (x + withSignOf x 0.5) =
        -nearest (|exact x| + 1 / 2) := by
      rw [hexact, hhalf, exact_neg, exact_half, habs, abs_neg, abs_abs,
        ← neg_add, nearest_neg]
    rw [hwhole, hminus, if_pos (neg_lt_zero.mpr hpos), Int.ceil_neg,
      Int.cast_neg]
    rfl
  · have habs : exact x = |exact x| := by rw [← exact_abs, ← hsign]
    refine ⟨.positive, habs, hround.trans ?_⟩
    have hplus : exact (x + withSignOf x 0.5) =
        nearest (|exact x| + 1 / 2) := by
      rw [hexact, hhalf, exact_half, ← habs]
    rw [hwhole, hplus, if_neg hpos.not_gt]
    rfl

/-- What rounding to a whole number takes away is at most one half. -/
theorem within_sub_round (hx : Within (2 ^ 22) x) :
    Within (1 / 2) (x - round x) := by
  obtain ⟨hfinite, s, hexact, hround⟩ := exact_round_eq hx
  have hbound :=
    (onGrid_abs_exact x).abs_nearest_sub_floor_le (abs_nonneg _) hx.abs_le
  have hdiff : exact x - exact (round x) =
      signed s (|exact x| - ⌊nearest (|exact x| + 1 / 2)⌋) := by
    rw [hround]
    nth_rewrite 1 [hexact]
    cases s
    · exact (neg_sub_neg _ _).trans (neg_sub _ _).symm
    · rfl
  have hsub := sub_roundsTo hx.isFinite hfinite
  rw [hdiff] at hsub
  rw [← abs_signed s, ← nearest_signed] at hbound
  have hone : |nearest (signed s (|exact x| - ⌊nearest (|exact x| + 1 / 2)⌋))| <
      2 ^ 128 :=
    hbound.trans_lt (by norm_num)
  rw [RoundsTo, if_pos hone] at hsub
  exact ⟨hsub.1, hsub.2 ▸ hbound⟩

end Round

end Approximate

end PitchFollower.Single
