import PitchFollower.Decimal.Shortest
import PitchFollower.Proofs.Decimal.Rounding
import PitchFollower.Proofs.Single.Bits
import PitchFollower.Proofs.Single.Midpoints

/-!
# Shortest decimals

The walk through the grids ends with a decimal that reads back.  On a grid that
is finer than the gaps beside the number one of its two neighbours always does,
so the walk never goes far below the size of the gaps, and the decimal it finds
has few digits.
-/

namespace PitchFollower.Decimal

open Single (exact two_zpow_pos)

/-! ## Magnitudes in units -/

namespace Dyadic

/-- The exact value of a dyadic quantity. -/
def value (v : Dyadic) : ℚ :=
  v.mantissa * 2 ^ v.exponent

theorem value_ofSingle {x : Float32} (hx : x.isFinite = true) :
    (ofSingle x).value = |exact x| :=
  (Single.abs_exactOf_unpack_binary32 hx).symm

/-- The fraction is the quantity in units of `10 ^ k`. -/
theorem inUnits_spec (v : Dyadic) (k : ℤ) :
    0 < (v.inUnits k).2 ∧
      ((v.inUnits k).1 : ℚ) / (v.inUnits k).2 = v.value / 10 ^ k := by
  refine ⟨Nat.mul_pos (Nat.two_pow_pos _) (Nat.pow_pos (by norm_num)), ?_⟩
  have hnum : (v.inUnits k).1 = v.mantissa * 2 ^ v.exponent.toNat *
      10 ^ (-k).toNat := rfl
  have hden : (v.inUnits k).2 = 2 ^ (-v.exponent).toNat * 10 ^ k.toNat := rfl
  rw [hnum, hden, value, zpow_eq_div 2, zpow_eq_div 10]
  push_cast
  field_simp

end Dyadic

/-! ## Neighbours on a grid -/

section Neighbours

variable {tie : TieBreak} {num den : ℕ} {passes : ℕ → Bool}

/-- What is found is one of the two neighbours, and passes. -/
theorem betterNeighbour_spec {n : ℕ}
    (h : betterNeighbour tie num den passes = some n) :
    passes n = true ∧ (n = num / den ∨ n = num / den + 1) := by
  unfold betterNeighbour at h
  dsimp only at h
  cases hbelow : passes (num / den) <;> cases habove : passes (num / den + 1)
  all_goals rw [hbelow, habove] at h
  · cases h
  · cases h
    exact ⟨habove, .inr rfl⟩
  · cases h
    exact ⟨hbelow, .inl rfl⟩
  · have hn : n = num / den ∨ n = num / den + 1 := by
      rw [← Option.some_inj.mp h]
      split
      · exact .inl rfl
      · exact .inr rfl
      · cases tie
        · change num / den + num / den % 2 = _ ∨ num / den + num / den % 2 = _
          omega
        · exact .inr rfl
    rcases hn with rfl | rfl
    · exact ⟨hbelow, .inl rfl⟩
    · exact ⟨habove, .inr rfl⟩

theorem betterNeighbour_eq_none
    (h : betterNeighbour tie num den passes = none) :
    passes (num / den) = false ∧ passes (num / den + 1) = false := by
  unfold betterNeighbour at h
  dsimp only at h
  cases hbelow : passes (num / den) <;> cases habove : passes (num / den + 1)
  all_goals rw [hbelow, habove] at h
  · exact ⟨rfl, rfl⟩
  all_goals cases h

end Neighbours

/-! ## Grids -/

/-- The neighbour of a magnitude on the grid of `10 ^ k` that reads back, if
there is one. -/
def hit? (tie : TieBreak) (x : Float32) (k : ℤ) : Option Decimal :=
  (betterNeighbour tie ((Dyadic.ofSingle x).inUnits k).1
    ((Dyadic.ofSingle x).inUnits k).2
    fun n => (toSingle ⟨n, k⟩).toBits == x.toBits).map (⟨·, k⟩)

theorem shortest_eq (tie : TieBreak) (x : Float32) :
    shortest tie x = (gridExponents.findSome? (hit? tie x.abs)).getD ⟨0, 0⟩ :=
  rfl

section Grid

variable {tie : TieBreak} {x : Float32} {k : ℤ} {d : Decimal}

/-- What `10 ^ k` fits into a number, and the rest. -/
theorem units_eq (hx : x.isFinite = true) (hpos : 0 < exact x) (k : ℤ) :
    ∃ r : ℚ, 0 ≤ r ∧ r < 1 ∧
      exact x =
        (((Dyadic.ofSingle x).inUnits k).1 /
          ((Dyadic.ofSingle x).inUnits k).2 : ℕ) * 10 ^ k +
        r * 10 ^ k := by
  obtain ⟨hden, hunits⟩ := (Dyadic.ofSingle x).inUnits_spec k
  rw [Dyadic.value_ofSingle hx, abs_of_pos hpos,
    Single.div_eq_add_rest _ hden] at hunits
  generalize ((Dyadic.ofSingle x).inUnits k).1 = num at *
  generalize ((Dyadic.ofSingle x).inUnits k).2 = den at *
  have hden' : (0 : ℚ) < den := by exact_mod_cast hden
  refine ⟨(num % den : ℕ) / den, by positivity, ?_, ?_⟩
  · rw [div_lt_one hden']
    exact_mod_cast Nat.mod_lt num hden
  · rw [← add_mul, hunits, div_mul_cancel₀ _ (ten_zpow_pos k).ne']

/-- A hit on the grid of `10 ^ k` reads back, and it is no further away than the
grid is wide. -/
theorem hit?_spec (hx : x.isFinite = true) (hpos : 0 < exact x)
    (h : hit? tie x k = some d) :
    d.exponent = k ∧ d.toSingle = x ∧ |d.value - exact x| ≤ 10 ^ k := by
  obtain ⟨n, hn, rfl⟩ := Option.map_eq_some_iff.mp h
  obtain ⟨hpasses, hneighbour⟩ := betterNeighbour_spec hn
  refine ⟨rfl, Single.eq_of_toBits_eq (beq_iff_eq.mp hpasses), ?_⟩
  obtain ⟨r, hr, hr', hsplit⟩ := units_eq hx hpos k
  have hpow := ten_zpow_pos k
  have hrest : 0 ≤ r * 10 ^ k := mul_nonneg hr hpow.le
  have hrest' : r * 10 ^ k ≤ 10 ^ k := mul_le_of_le_one_left hpow.le hr'.le
  rw [value, hsplit, abs_le]
  rcases hneighbour with rfl | rfl
  · constructor <;> linarith
  · push_cast
    rw [add_mul, one_mul]
    constructor <;> linarith

/-- On a grid that is finer than the gaps beside a number, one of its neighbours
reads back. -/
theorem hit?_ne_none (hx : x.isFinite = true) (hpos : 0 < exact x) {s : ℤ}
    (hreach : ∀ y, |y - exact x| < 2 ^ s / 2 → Single.nearest y = exact x)
    (hk : (10 : ℚ) ^ k < 2 ^ s) : hit? tie x k ≠ none := by
  intro hnone
  obtain ⟨hbelow, habove⟩ :=
    betterNeighbour_eq_none (Option.map_eq_none_iff.mp hnone)
  rw [beq_eq_false_iff_ne] at hbelow habove
  have hreads : ∀ d : Decimal, |d.value - exact x| ≤ 10 ^ k / 2 →
      d.toSingle = x := by
    intro d hd
    exact Single.eq_of_roundsTo (toSingle_roundsTo d)
      (hreach _ (hd.trans_lt (by linarith))) hpos.ne'
  obtain ⟨r, hr, hr', hsplit⟩ := units_eq hx hpos k
  have hpow := ten_zpow_pos k
  rcases le_total r (1 / 2) with hhalf | hhalf
  · refine hbelow (congrArg _ (hreads _ ?_))
    have hle := mul_le_mul_of_nonneg_right hhalf hpow.le
    have hnonneg := mul_nonneg hr hpow.le
    rw [value, hsplit, abs_le]
    constructor <;> linarith
  · refine habove (congrArg _ (hreads _ ?_))
    have hle := mul_le_mul_of_nonneg_right hhalf hpow.le
    have hle' := mul_le_mul_of_nonneg_right hr'.le hpow.le
    rw [value, hsplit, abs_le]
    push_cast
    rw [add_mul]
    constructor <;> linarith

end Grid

/-! ## The walk -/

theorem mem_gridExponents {k : ℤ} : k ∈ gridExponents ↔ -149 ≤ k ∧ k ≤ 39 := by
  unfold gridExponents
  rw [List.mem_map]
  constructor
  · rintro ⟨i, hi, rfl⟩
    rw [List.mem_range] at hi
    omega
  · rintro ⟨hleast, hmost⟩
    exact ⟨(39 - k).toNat, List.mem_range.mpr (by omega), by omega⟩

theorem pairwise_gridExponents : gridExponents.Pairwise (· > ·) := by
  unfold gridExponents
  rw [List.pairwise_map]
  exact List.pairwise_lt_range.imp fun h => by omega

/-- What the walk finds was not to be found on the next coarser grid. -/
theorem findSome?_gridExponents {α : Type} {f : ℤ → Option α} {a : α}
    (h : gridExponents.findSome? f = some a) :
    ∃ k ≤ 39, -149 ≤ k ∧ f k = some a ∧ (k < 39 → f (k + 1) = none) := by
  obtain ⟨coarser, k, finer, hsplit, hk, hnone⟩ :=
    List.findSome?_eq_some_iff.mp h
  obtain ⟨hleast, hmost⟩ :=
    mem_gridExponents.mp
      (hsplit ▸ List.mem_append_cons_self : k ∈ gridExponents)
  refine ⟨k, hmost, hleast, hk, fun hlt => hnone _ ?_⟩
  have hdecreasing := pairwise_gridExponents
  have hmem : k + 1 ∈ gridExponents := mem_gridExponents.mpr (by omega)
  rw [hsplit] at hmem hdecreasing
  rcases List.mem_append.mp hmem with hcoarser | hrest
  · exact hcoarser
  · have hle : k + 1 ≤ k := by
      rcases List.mem_cons.mp hrest with heq | hfiner
      · exact heq.le
      · have htail := (List.pairwise_append.mp hdecreasing).2.1
        exact ((List.pairwise_cons.mp htail).1 _ hfiner).le
    omega

/-- What is known of the decimal that is written for a positive number. -/
structure IsShort (x : Float32) (d : Decimal) : Prop where
  reads : d.toSingle = x
  near : |d.value - exact x| ≤ 10 ^ d.exponent
  pos : 0 < d.significand
  small : d.significand < 2 ^ 28
  least : -45 ≤ d.exponent
  most : d.exponent ≤ 39

/-- A decimal that is near a number has few digits if the grid is not much finer
than the gaps beside the number. -/
theorem significand_lt {x : ℚ} {d : Decimal} {s : ℤ} (hx : x ≤ 2 ^ 24 * 2 ^ s)
    (hgrid : (2 : ℚ) ^ s ≤ 10 ^ (d.exponent + 1))
    (hnear : |d.value - x| ≤ 10 ^ d.exponent) : d.significand < 2 ^ 28 := by
  have hpow := ten_zpow_pos d.exponent
  have hle := (le_abs_self _).trans hnear
  rw [zpow_add_one₀ (by norm_num)] at hgrid
  have hbound : (d.significand : ℚ) * 10 ^ d.exponent ≤
      (2 ^ 24 * 10 + 1) * 10 ^ d.exponent := by
    unfold value at hle
    linarith
  have hsmall := le_of_mul_le_mul_right hbound hpow
  have hlt : (d.significand : ℚ) < 2 ^ 28 := hsmall.trans_lt (by norm_num)
  exact_mod_cast hlt

/-- A decimal that reads back as a positive number is positive. -/
theorem significand_pos {x : Float32} {d : Decimal} (hpos : 0 < exact x)
    (h : d.toSingle = x) : 0 < d.significand := by
  rcases Nat.eq_zero_or_pos d.significand with hnone | hsome
  · obtain ⟨n, k⟩ := d
    obtain rfl : n = 0 := hnone
    have hzero : (⟨0, k⟩ : Decimal).toSingle = toSingle ⟨0, 0⟩ := rfl
    rw [← h, hzero] at hpos
    exact absurd hpos (by decide +kernel)
  · exact hsome

/-- The walk finds a decimal at the latest where the grid is finer than the gaps
beside the number. -/
theorem findSome?_ne_none (tie : TieBreak) {x : Float32}
    (hx : x.isFinite = true) (hpos : 0 < exact x) {s : ℤ} (hs : -149 ≤ s)
    (hreach : ∀ y, |y - exact x| < 2 ^ s / 2 → Single.nearest y = exact x) :
    gridExponents.findSome? (hit? tie x) ≠ none := by
  intro hnone
  have hfine : (10 : ℚ) ^ (-45 : ℤ) < 2 ^ s :=
    calc (10 : ℚ) ^ (-45 : ℤ) < 2 ^ (-149 : ℤ) := by norm_num
      _ ≤ 2 ^ s := zpow_le_zpow_right₀ (by norm_num) hs
  exact hit?_ne_none hx hpos hreach hfine
    (List.findSome?_eq_none_iff.mp hnone _
      (mem_gridExponents.mpr (by norm_num)))

/-- What is found is short.  One of the grids has such a decimal, because no
finite number reaches the gaps of the grid above the coarsest one. -/
theorem isShort_shortest (tie : TieBreak) {x : Float32} (hx : x.isFinite = true)
    (hne : exact x ≠ 0) : IsShort x.abs (shortest tie x) := by
  rw [shortest_eq]
  have habs : x.abs.isFinite = true := (Single.isFinite_abs x).trans hx
  have hpos := Single.exact_abs_pos hne
  generalize x.abs = y at *
  obtain ⟨s, hs, hle, hreach⟩ := (Single.onGrid_exact y).exists_reach hpos
  obtain ⟨d, hd⟩ :=
    Option.ne_none_iff_exists'.mp (findSome?_ne_none tie habs hpos hs hreach)
  rw [hd, Option.getD_some]
  obtain ⟨k, hmost, -, hhit, hcoarser⟩ := findSome?_gridExponents hd
  obtain ⟨rfl, hreads, hnear⟩ := hit?_spec habs hpos hhit
  have hgrid : (2 : ℚ) ^ s ≤ 10 ^ (d.exponent + 1) := by
    by_contra! hcoarse
    rcases hmost.lt_or_eq with hlt | heq
    · exact hit?_ne_none habs hpos hreach hcoarse (hcoarser hlt)
    · rw [heq] at hcoarse
      refine hpos.ne ((Single.nearest_zero).symm.trans (hreach 0 ?_))
      calc |0 - exact y| = |exact y| := by rw [zero_sub, abs_neg]
        _ < 2 ^ 128 := Single.abs_exact_lt y
        _ < 10 ^ (39 + 1 : ℤ) / 2 := by norm_num
        _ < 2 ^ s / 2 := div_lt_div_of_pos_right hcoarse two_pos
  have hleast : (10 : ℚ) ^ (-45 : ℤ) < 10 ^ (d.exponent + 1) :=
    calc (10 : ℚ) ^ (-45 : ℤ) < 2 ^ (-149 : ℤ) := by norm_num
      _ ≤ 2 ^ s := zpow_le_zpow_right₀ (by norm_num) hs
      _ ≤ 10 ^ (d.exponent + 1) := hgrid
  have hexponent := (zpow_lt_zpow_iff_right₀ (by norm_num)).mp hleast
  exact ⟨hreads, hnear, significand_pos hpos hreads,
    significand_lt hle hgrid hnear, by omega, hmost⟩

end PitchFollower.Decimal
