import Mathlib.Tactic.LinearCombination
import PitchFollower.Proofs.Decimal.Digits

/-!
# Decimals and midpoints

How close can a decimal come to the middle between two numbers without meeting
it? With `n` units of `10 ^ k` and a midpoint `m * 2 ^ t` the question is how
well the fraction `m / n` approximates a power of ten over a power of two.  Two
neighbouring fractions enclose this quotient, and every fraction strictly
between them has a larger denominator than either, so that only the two and
their multiples come close.

For each power of ten the two fractions are found by walking down the tree of
fractions, and what the argument needs of them is checked by evaluation.  A
handful of decimals remain that come too close, and they are listed.
-/

namespace PitchFollower.Decimal

/-! ## Neighbouring fractions -/

/-- Two fractions, `a / b` and the larger one `c / d`. -/
structure Enclosure where
  a : ℕ
  b : ℕ
  c : ℕ
  d : ℕ

/-- The relative error that an intermediate result may have. -/
def drift : ℚ := (2 ^ 40 + 1) / 2 ^ 92

/-- The fractions are neighbours, they enclose `q`, and the numbers between them
have denominators of more than 26 bits. -/
structure Enclosure.Encloses (f : Enclosure) (q : ℚ) : Prop where
  neighbours : f.b * f.c = f.a * f.d + 1
  low : (f.a : ℚ) ≤ q * f.b
  high : q * f.d < f.c
  fine : 2 ^ 26 ≤ f.b + f.d
  small : f.b ≤ 2 ^ 26 ∧ f.d ≤ 2 ^ 26

section Enclosure

variable {f : Enclosure} {q : ℚ} {m n : ℕ}

/-- What is close to a numerator of 25 bits is hardly larger. -/
theorem lt_of_close (hm : m < 2 ^ 25) (hclose : |q * n - m| ≤ drift * (q * n)) :
    q * n < 2 ^ 25 - 1 / 2 := by
  have hm' : (m : ℚ) + 1 ≤ 2 ^ 25 := by exact_mod_cast hm
  have hle := (le_abs_self _).trans hclose
  unfold drift at hle
  linarith

/-- A denominator of 26 bits does not make a whole out of the drift. -/
theorem mul_lt_one_of_close {b : ℕ} {x : ℚ} (hb : b ≤ 2 ^ 26)
    (hn : q * n < 2 ^ 25 - 1 / 2) (hx : x ≤ drift * (q * n)) : b * x < 1 := by
  have hb' : (b : ℚ) ≤ 2 ^ 26 := by exact_mod_cast hb
  have hdrift : 0 < drift := by norm_num [drift]
  rcases le_or_gt x 0 with hneg | hpos
  · exact (mul_nonpos_of_nonneg_of_nonpos (Nat.cast_nonneg b) hneg).trans_lt
      one_pos
  · calc b * x ≤ 2 ^ 26 * x := mul_le_mul_of_nonneg_right hb' hpos.le
      _ ≤ 2 ^ 26 * (drift * (q * n)) :=
        mul_le_mul_of_nonneg_left hx (by norm_num)
      _ ≤ 2 ^ 26 * (drift * 2 ^ 25) := by gcongr; linarith
      _ < 1 := by norm_num [drift]

/-- A fraction `m / n` that is close to `q` is a mediant of the two that enclose
`q`: its weights are not negative. -/
theorem Enclosure.Encloses.exists_weights (h : f.Encloses q) (hm : m < 2 ^ 25)
    (hclose : |q * n - m| ≤ drift * (q * n)) :
    ∃ u w : ℕ, n = f.b * w + f.d * u ∧ m = f.a * w + f.c * u := by
  have hdet : (f.b * f.c : ℤ) = f.a * f.d + 1 := by exact_mod_cast h.neighbours
  obtain ⟨hbsmall, hdsmall⟩ := h.small
  have hbound := lt_of_close hm hclose
  rw [abs_le] at hclose
  obtain ⟨u, hu⟩ : ∃ u : ℤ, u = m * f.b - n * f.a := ⟨_, rfl⟩
  obtain ⟨w, hw⟩ : ∃ w : ℤ, w = n * f.c - m * f.d := ⟨_, rfl⟩
  have huq : (u : ℚ) = m * f.b - n * f.a := by exact_mod_cast hu
  have hwq : (w : ℚ) = n * f.c - m * f.d := by exact_mod_cast hw
  have hunonneg : 0 ≤ u := by
    have hlt :=
      mul_lt_one_of_close hbsmall hbound (show q * n - m ≤ _ from hclose.2)
    have hpos : 0 ≤ n * (q * f.b - f.a) :=
      mul_nonneg (Nat.cast_nonneg n) (sub_nonneg.mpr h.low)
    have hgt : (-1 : ℚ) < u := by linarith
    have : -1 < u := by exact_mod_cast hgt
    omega
  have hwnonneg : 0 ≤ w := by
    have hlt :=
      mul_lt_one_of_close hdsmall hbound (show m - q * n ≤ _ by linarith)
    have hpos : 0 ≤ n * (f.c - q * f.d) :=
      mul_nonneg (Nat.cast_nonneg n) (sub_nonneg.mpr h.high.le)
    have hgt : (-1 : ℚ) < w := by linarith
    have : -1 < w := by exact_mod_cast hgt
    omega
  have hn : (n : ℤ) = f.b * w + f.d * u := by
    rw [hu, hw]
    linear_combination -(n : ℤ) * hdet
  have hm : (m : ℤ) = f.a * w + f.c * u := by
    rw [hu, hw]
    linear_combination -(m : ℤ) * hdet
  obtain ⟨u, rfl⟩ := Int.eq_ofNat_of_zero_le hunonneg
  obtain ⟨w, rfl⟩ := Int.eq_ofNat_of_zero_le hwnonneg
  exact ⟨u, w, by exact_mod_cast hn, by exact_mod_cast hm⟩

/-- A mediant of both fractions has a denominator that is too large. -/
theorem Enclosure.Encloses.two_pow_le (h : f.Encloses q) {u w : ℕ} (hu : 0 < u)
    (hw : 0 < w) (hn : n = f.b * w + f.d * u) : 2 ^ 26 ≤ n := by
  calc 2 ^ 26 ≤ f.b + f.d := h.fine
    _ ≤ f.b * w + f.d * u :=
      add_le_add (Nat.le_mul_of_pos_right _ hw) (Nat.le_mul_of_pos_right _ hu)
    _ = n := hn.symm

/-- A fraction `m / n` that is close to `q` is one of the two that enclose
`q`. -/
theorem Enclosure.Encloses.eq_multiple (h : f.Encloses q) (hhalf : 1 / 2 ≤ q)
    (hn : 0 < n) (hm : m < 2 ^ 25) (hclose : |q * n - m| ≤ drift * (q * n)) :
    ∃ g : ℕ, m = g * f.a ∧ n = g * f.b ∧ q * f.b - f.a ≤ drift * (q * f.b) ∨
      m = g * f.c ∧ n = g * f.d ∧ f.c - q * f.d ≤ drift * (q * f.d) := by
  obtain ⟨u, w, hnsum, hmsum⟩ := h.exists_weights hm hclose
  have hbound := lt_of_close hm hclose
  rw [abs_le] at hclose
  rcases Nat.eq_zero_or_pos u with rfl | hu
  · have hn' : n = w * f.b := by rw [hnsum]; ring
    have hm' : m = w * f.a := by rw [hmsum]; ring
    have hw : (0 : ℚ) < w := by
      exact_mod_cast Nat.pos_of_mul_pos_right (hn' ▸ hn)
    refine ⟨w, .inl ⟨hm', hn', le_of_mul_le_mul_left ?_ hw⟩⟩
    have hle := hclose.2
    rw [hn', hm'] at hle
    push_cast at hle
    linarith
  rcases Nat.eq_zero_or_pos w with rfl | hw
  · have hn' : n = u * f.d := by rw [hnsum]; ring
    have hm' : m = u * f.c := by rw [hmsum]; ring
    refine ⟨u, .inr ⟨hm', hn', le_of_mul_le_mul_left ?_ (Nat.cast_pos.mpr hu)⟩⟩
    have hle := hclose.1
    rw [hn', hm'] at hle
    push_cast at hle
    linarith
  · exfalso
    have hfine : (2 : ℚ) ^ 26 ≤ n := by exact_mod_cast h.two_pow_le hu hw hnsum
    have hle : 1 / 2 * (n : ℚ) ≤ q * n :=
      mul_le_mul_of_nonneg_right hhalf (Nat.cast_nonneg n)
    linarith

end Enclosure

/-! ## Certificates -/

/-- The quantity `num / den * 2 ^ exponent`. -/
structure Scaled where
  num : ℕ
  den : ℕ
  exponent : ℤ

/-- A power of ten with a fraction between a half and one. -/
def Scaled.ofPower (k : ℤ) : Scaled :=
  let power := 10 ^ k.natAbs
  if 0 ≤ k then ⟨power, 2 ^ (power.log2 + 1),
    power.log2 + 1⟩ else ⟨2 ^ power.log2, power, -power.log2⟩

/-- Walks down the tree of fractions towards `num / den`, first with the lower
fraction and then with the upper one, until the fractions in between are too
fine. -/
def Enclosure.tighten (num den : ℕ) : ℕ → Enclosure → Enclosure
  | 0, f => f
  | fuel + 1, ⟨a, b, c, d⟩ =>
    if 2 ^ 26 ≤ b + d then ⟨a, b, c, d⟩
    else
      let below := num * b - a * den
      let above := c * den - num * d
      let s := min (below / above) ((2 ^ 26 - 1 - b) / d)
      let a := a + s * c
      let b := b + s * d
      let below := below - s * above
      let room := (2 ^ 26 - 1 - d) / b
      let r := if below = 0 then room else min ((above - 1) / below) room
      tighten num den fuel ⟨a, b, c + r * a, d + r * b⟩

/-- The neighbouring fractions for a power of ten. -/
def Enclosure.ofPower (k : ℤ) : Enclosure :=
  tighten (Scaled.ofPower k).num (Scaled.ofPower k).den 40 ⟨0, 1, 1, 1⟩

/-- The decimals that come close to a midpoint without meeting it. -/
def exceptions : List Decimal :=
  [⟨35192655, -33⟩, ⟨28154124, -32⟩, ⟨14077062, -32⟩, ⟨7038531, -32⟩,
    ⟨51291698, -15⟩, ⟨25645849, -15⟩, ⟨28874659, 15⟩, ⟨41358803, 27⟩]

/-- No multiple of a fraction `p / q` belongs to a midpoint: its numerator is
even or too large, or the decimals it belongs to are exceptions. -/
def Harmless (k : ℤ) (p q : ℕ) : Prop :=
  p % 2 = 0 ∨ 2 ^ 25 ≤ p ∨
    2 ^ 25 ≤ 3 * p ∧ ∀ i < 27, 2 ^ i ∣ q → ⟨q / 2 ^ i, k⟩ ∈ exceptions

instance (k : ℤ) (p q : ℕ) : Decidable (Harmless k p q) :=
  inferInstanceAs (Decidable (_ ∨ _))

/-- What is checked of the fractions for a power of ten: they are neighbours,
they enclose it, and each is either further away than the drift or harmless,
unless the lower one is the power itself. -/
def Certified (k : ℤ) (s : Scaled) (f : Enclosure) : Prop :=
  (f.b * f.c = f.a * f.d + 1 ∧ f.a * s.den ≤ s.num * f.b ∧
    s.num * f.d < f.c * s.den ∧
    2 ^ 26 ≤ f.b + f.d ∧ f.b ≤ 2 ^ 26 ∧ f.d ≤ 2 ^ 26) ∧
  ((2 ^ 40 + 1) * (s.num * f.b) < 2 ^ 92 * (s.num * f.b - f.a * s.den) ∨
    Harmless k f.a f.b ∨
    f.a * s.den = s.num * f.b ∧ k.natAbs ≤ 22) ∧
  ((2 ^ 40 + 1) * (s.num * f.d) < 2 ^ 92 * (f.c * s.den - s.num * f.d) ∨
    Harmless k f.c f.d)

instance (k : ℤ) (s : Scaled) (f : Enclosure) : Decidable (Certified k s f) :=
  inferInstanceAs (Decidable (_ ∧ _))

theorem certified_from_top :
    ∀ i < 85, Certified (39 - (i : ℕ)) (.ofPower (39 - (i : ℕ)))
    (.ofPower (39 - (i : ℕ))) := by
  decide +kernel

theorem certified {k : ℤ} (hleast : -45 ≤ k) (hmost : k ≤ 39) :
    Certified k (.ofPower k) (.ofPower k) := by
  have h := certified_from_top (39 - k).toNat (by omega)
  rwa [show (39 : ℤ) - (39 - k).toNat = k by omega] at h

/-! ## Separation -/

section Separation

variable {n m : ℕ} {k t : ℤ}

theorem Scaled.ofPower_natCast (j : ℕ) :
    ofPower j = ⟨10 ^ j, 2 ^ ((10 ^ j).log2 + 1), (10 ^ j).log2 + 1⟩ := by
  rw [ofPower, if_pos (Int.natCast_nonneg j), Int.natAbs_natCast]

theorem Scaled.ofPower_neg {j : ℕ} (hj : 0 < j) :
    ofPower (-j) = ⟨2 ^ (10 ^ j).log2, 10 ^ j, -((10 ^ j).log2 : ℤ)⟩ := by
  rw [ofPower, if_neg (by omega), Int.natAbs_neg, Int.natAbs_natCast]

/-- The parts of a normalized power of ten make up the power, and the fraction
lies between a half and one. -/
theorem Scaled.ofPower_spec (k : ℤ) :
    0 < (ofPower k).den ∧
      (10 : ℚ) ^ k =
        (ofPower k).num / (ofPower k).den * 2 ^ (ofPower k).exponent ∧
      (1 / 2 : ℚ) ≤ (ofPower k).num / (ofPower k).den ∧
      ((ofPower k).num / (ofPower k).den : ℚ) ≤ 1 := by
  have hlog (j : ℕ) : (2 : ℚ) ^ (10 ^ j).log2 ≤ 10 ^ j ∧
      (10 : ℚ) ^ j < 2 ^ ((10 ^ j).log2 + 1) :=
    ⟨by exact_mod_cast Nat.log2_self_le (n := 10 ^ j) (by positivity),
      by exact_mod_cast Nat.lt_log2_self (n := 10 ^ j)⟩
  rcases le_or_gt 0 k with hk | hk
  · obtain ⟨j, rfl⟩ := Int.eq_ofNat_of_zero_le hk
    obtain ⟨hlow, hhigh⟩ := hlog j
    rw [ofPower_natCast]
    generalize (10 ^ j).log2 = l at *
    refine ⟨by positivity, ?_, ?_, ?_⟩
    · rw [zpow_natCast, zpow_add_one₀ (by norm_num), zpow_natCast]
      push_cast
      rw [pow_succ, div_mul_cancel₀ _ (by positivity)]
    · push_cast
      rw [le_div_iff₀ (by positivity), pow_succ]
      linarith
    · push_cast
      exact (div_le_one (by positivity)).mpr hhigh.le
  · obtain ⟨j, hj⟩ := Int.eq_ofNat_of_zero_le (neg_nonneg.mpr hk.le)
    obtain rfl : k = -j := by omega
    obtain ⟨hlow, hhigh⟩ := hlog j
    rw [ofPower_neg (by omega)]
    generalize (10 ^ j).log2 = l at *
    refine ⟨by positivity, ?_, ?_, ?_⟩
    · rw [zpow_neg, zpow_neg, zpow_natCast, zpow_natCast]
      push_cast
      field_simp
    · push_cast
      rw [le_div_iff₀ (by positivity)]
      rw [pow_succ] at hhigh
      linarith
    · push_cast
      exact (div_le_one (by positivity)).mpr hlow

theorem Harmless.mem_exceptions {p q g i : ℕ} (h : Harmless k p q)
    (hq : q ≤ 2 ^ 26) (hn : 0 < n) (hodd : g * p % 2 = 1)
    (hsmall : g * p < 2 ^ 25) (hdenominator : n * 2 ^ i = g * q) :
    ⟨n, k⟩ ∈ exceptions := by
  have hg : 0 < g := Nat.pos_of_ne_zero fun hzero => by simp [hzero] at hodd
  rcases h with heven | hlarge | ⟨hlarge, hlisted⟩
  · rw [Nat.mul_mod, heven, mul_zero, Nat.zero_mod] at hodd
    cases hodd
  · exact absurd (hlarge.trans (Nat.le_mul_of_pos_left p hg)) hsmall.not_ge
  · have hthree : g < 3 := by
      by_contra! hge
      exact absurd (hlarge.trans (Nat.mul_le_mul_right p hge)) hsmall.not_ge
    obtain rfl : g = 1 := by
      by_contra hne
      obtain rfl : g = 2 := by omega
      rw [Nat.mul_mod_right] at hodd
      cases hodd
    rw [one_mul] at hdenominator
    have hi : i < 27 := by
      rw [← Nat.pow_lt_pow_iff_right (show 1 < 2 by norm_num)]
      have hle : 2 ^ i ≤ n * 2 ^ i := Nat.le_mul_of_pos_left _ hn
      omega
    have hmem := hlisted i hi ⟨n, by rw [← hdenominator, mul_comm]⟩
    rwa [← hdenominator, Nat.mul_div_cancel _ (by positivity)] at hmem

section Certified

variable {s : Scaled} {f : Enclosure} {q : ℚ}

theorem Certified.encloses (h : Certified k s f) (hden : 0 < s.den)
    (hq : q * s.den = s.num) : f.Encloses q := by
  obtain ⟨⟨hneighbours, hlow, hhigh, hfine, hsmall⟩, -⟩ := h
  have hden' : (0 : ℚ) < s.den := by exact_mod_cast hden
  refine ⟨hneighbours, ?_, ?_, hfine, hsmall⟩
  · have hle : (f.a * s.den : ℚ) ≤ s.num * f.b := by exact_mod_cast hlow
    rw [← hq, mul_right_comm] at hle
    exact le_of_mul_le_mul_right hle hden'
  · have hlt : (s.num * f.d : ℚ) < f.c * s.den := by exact_mod_cast hhigh
    rw [← hq, mul_right_comm] at hlt
    exact lt_of_mul_lt_mul_right hlt hden'.le

/-- What is checked of a distance rules out that it is within the drift. -/
theorem not_near_of_far {num den b distance : ℕ} {x : ℚ} (hq : q * den = num)
    (hx : x * den = distance)
    (hfar : (2 ^ 40 + 1) * (num * b) < 2 ^ 92 * distance) :
    ¬ x ≤ drift * (q * b) := by
  intro hnear
  have hfar' : (2 ^ 40 + 1) * (num * b : ℚ) < 2 ^ 92 * distance := by
    exact_mod_cast hfar
  have hscaled :=
    mul_le_mul_of_nonneg_right hnear (Nat.cast_nonneg (α := ℚ) den)
  have hdrift : 2 ^ 92 * drift = 2 ^ 40 + 1 := by norm_num [drift]
  have hle : 2 ^ 92 * (distance : ℚ) ≤ (2 ^ 40 + 1) * (num * b) := by
    calc 2 ^ 92 * (distance : ℚ) = 2 ^ 92 * (x * den) := by rw [hx]
      _ ≤ 2 ^ 92 * (drift * (q * b) * den) :=
        mul_le_mul_of_nonneg_left hscaled (by norm_num)
      _ = (2 ^ 40 + 1) * (num * b) := by rw [← hdrift, ← hq]; ring
  exact hle.not_gt hfar'

theorem Certified.low_near (h : Certified k s f) (hden : 0 < s.den)
    (hq : q * s.den = s.num) (hnear : q * f.b - f.a ≤ drift * (q * f.b)) :
    Harmless k f.a f.b ∨ q * f.b = f.a ∧ k.natAbs ≤ 22 := by
  obtain ⟨⟨-, hlow, -⟩, hfar | hharmless | ⟨hsame, hsmall⟩, -⟩ := h
  · refine absurd hnear (not_near_of_far hq ?_ hfar)
    rw [Nat.cast_sub hlow]
    push_cast
    rw [← hq]
    ring
  · exact .inl hharmless
  · have hden' : (s.den : ℚ) ≠ 0 := by exact_mod_cast hden.ne'
    refine .inr ⟨mul_right_cancel₀ hden' ?_, hsmall⟩
    rw [mul_right_comm, hq]
    exact_mod_cast hsame.symm

theorem Certified.high_near (h : Certified k s f) (hq : q * s.den = s.num)
    (hnear : f.c - q * f.d ≤ drift * (q * f.d)) : Harmless k f.c f.d := by
  obtain ⟨⟨-, -, hhigh, -⟩, -, hfar | hharmless⟩ := h
  · refine absurd hnear (not_near_of_far hq ?_ hfar)
    rw [Nat.cast_sub hhigh.le]
    push_cast
    rw [← hq]
    ring
  · exact hharmless

end Certified

/-- A decimal that is no exception keeps away from all midpoints whose gaps are
not wider than its unit, unless it meets one of them.  Such a gap is not wider
than the power of two that the unit is scaled by either. -/
theorem eq_or_mem_exceptions (hleast : -45 ≤ k) (hmost : k ≤ 39) (hn : 0 < n)
    (hodd : m % 2 = 1) (hm : m < 2 ^ 25) (ht : (2 : ℚ) ^ t < 2 * 10 ^ k)
    (hclose : |n * 10 ^ k - m * (2 : ℚ) ^ t| ≤ drift * (n * 10 ^ k)) :
    (n * 10 ^ k = m * (2 : ℚ) ^ t ∧ k.natAbs ≤ 22) ∨ ⟨n, k⟩ ∈ exceptions := by
  obtain ⟨hden, hpower, hlow, hhigh⟩ := Scaled.ofPower_spec k
  have hcertified := certified hleast hmost
  generalize Scaled.ofPower k = s at *
  generalize Enclosure.ofPower k = f at *
  have hden' : (0 : ℚ) < s.den := by exact_mod_cast hden
  have htpos : (0 : ℚ) < 2 ^ t := zpow_pos (by norm_num) t
  generalize hquot : (s.num / s.den : ℚ) = q at *
  have hq : q * s.den = s.num := by rw [← hquot, div_mul_cancel₀ _ hden'.ne']
  have hle : t ≤ s.exponent := by
    have hlt : (2 : ℚ) ^ t < 2 ^ (s.exponent + 1) := by
      rw [zpow_add_one₀ (by norm_num)]
      have :=
        mul_le_of_le_one_left
          (zpow_pos (show (0 : ℚ) < 2 by norm_num) s.exponent).le hhigh
      linarith
    have := (zpow_lt_zpow_iff_right₀ (show (1 : ℚ) < 2 by norm_num)).mp hlt
    omega
  obtain ⟨i, hi⟩ := Int.le.dest hle
  have hscale : (n : ℚ) * 10 ^ k = q * (n * 2 ^ i : ℕ) * 2 ^ t := by
    rw [hpower, ← hi, zpow_add₀ (by norm_num), zpow_natCast]
    push_cast
    ring
  have hencloses := hcertified.encloses hden hq
  rw [hscale, ← sub_mul, abs_mul, abs_of_pos htpos, ← mul_assoc] at hclose
  obtain ⟨g, ⟨hmg, hng, hnear⟩ | ⟨hmg, hng, hnear⟩⟩ :=
    hencloses.eq_multiple hlow (by positivity) hm
      (le_of_mul_le_mul_right hclose htpos)
  · rcases hcertified.low_near hden hq hnear with hharmless | ⟨hsame, hsmall⟩
    · exact .inr (hharmless.mem_exceptions hencloses.small.1 hn (hmg ▸ hodd)
        (hmg ▸ hm) hng)
    · refine .inl ⟨?_, hsmall⟩
      rw [hscale, hng, hmg]
      push_cast
      rw [← hsame]
      ring
  · have hharmless := hcertified.high_near hq hnear
    exact .inr (hharmless.mem_exceptions hencloses.small.2 hn (hmg ▸ hodd)
      (hmg ▸ hm) hng)

end Separation

end PitchFollower.Decimal
