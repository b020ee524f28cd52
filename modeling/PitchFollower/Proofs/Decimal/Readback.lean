import PitchFollower.Proofs.Decimal.Layout
import PitchFollower.Proofs.Decimal.Leading
import PitchFollower.Proofs.Decimal.Scaling
import PitchFollower.Proofs.Decimal.Shortest

/-!
# Stored numbers read back

A stored number is read in double precision first, and only then rounded to
single precision.  The shortest decimal of the number itself would be rounded to
it, and what is read in its place is close to that decimal.  So the two could
only be rounded differently if a midpoint lay between them, and the decimals
with a midpoint as close as that are few enough to be tried.
-/

namespace PitchFollower.Decimal

open Float.Model (UnpackedFloat)
open Single (exact)

/-! ## Close to the shortest decimal -/

section Close

variable {x : Float32} {d : Decimal}

theorem IsShort.nearest_value (h : IsShort x d) (hx : x.isFinite = true) :
    Single.nearest d.value = exact x := by
  have hround := toSingle_roundsTo d
  rw [h.reads] at hround
  exact (hround.exact_eq hx).symm

theorem IsShort.value_lt (h : IsShort x d) :
    d.value < 2 ^ 28 * 10 ^ d.exponent := by
  have hsmall : (d.significand : ℚ) < 2 ^ 28 := by exact_mod_cast h.small
  exact mul_lt_mul_of_pos_right hsmall (ten_zpow_pos _)

/-- A midpoint next to a number is closer to it than twice the unit of its
shortest decimal, if it is close to that decimal. -/
theorem IsShort.midpoint_lt (h : IsShort x d) {c : ℚ} {t : ℤ}
    (hbeside : |c - exact x| = 2 ^ t)
    (hclose : |d.value - c| ≤ drift * d.value) :
    (2 : ℚ) ^ t < 2 * 10 ^ d.exponent := by
  have hpow := ten_zpow_pos d.exponent
  have hdrift : drift * 2 ^ 28 ≤ 1 / 2 := by norm_num [drift]
  have hpos : 0 < drift := by norm_num [drift]
  calc (2 : ℚ) ^ t = |c - exact x| := hbeside.symm
    _ ≤ |c - d.value| + |d.value - exact x| := abs_sub_le _ _ _
    _ ≤ drift * d.value + 10 ^ d.exponent :=
      add_le_add (abs_sub_comm c _ ▸ hclose) h.near
    _ ≤ drift * (2 ^ 28 * 10 ^ d.exponent) + 10 ^ d.exponent :=
      add_le_add_left (mul_le_mul_of_nonneg_left h.value_lt.le hpos.le) _
    _ = drift * 2 ^ 28 * 10 ^ d.exponent + 10 ^ d.exponent := by rw [mul_assoc]
    _ ≤ 1 / 2 * 10 ^ d.exponent + 10 ^ d.exponent :=
      add_le_add_left (mul_le_mul_of_nonneg_right hdrift hpow.le) _
    _ < 2 * 10 ^ d.exponent := by linarith

/-- What is close to the shortest decimal of a number is rounded to the number,
unless the decimal is an exception.  If the decimal is a midpoint itself,
nothing has been rounded before. -/
theorem IsShort.nearest_eq (h : IsShort x d) (hx : x.isFinite = true)
    (hpos : 0 < exact x) (hd : d ∉ exceptions) {r : ℚ}
    (herror : |r - d.value| ≤ drift * d.value)
    (hexact : d.exponent.natAbs ≤ 22 → ∀ (n : ℕ) (e : ℤ), n < 2 ^ 53 →
      d.value = n * 2 ^ e → r = d.value) :
    Single.nearest r = exact x := by
  by_contra hne
  have hvalue := h.nearest_value hx
  obtain ⟨m, t, hodd, hm, -, hbeside, hbetween⟩ :=
    Single.exists_midpoint (Single.onGrid_exact x) hpos hvalue hne
  have hclose := hbetween.trans herror
  rcases eq_or_mem_exceptions h.least h.most h.pos hodd hm
    (h.midpoint_lt hbeside hclose) hclose
    with ⟨hmeet, hsmall⟩ | hmem
  · have hsame := hexact hsmall m t (hm.trans (by norm_num)) hmeet
    exact hne (hsame ▸ hvalue)
  · exact hd hmem

end Close

/-! ## From double to single precision -/

theorem narrow_roundsTo {u : UnpackedFloat} (hu : Double.IsNormal u) :
    Single.RoundsTo (Single.exactOf u) (signed false (narrow u)) := by
  obtain ⟨m, e, hm, rfl, -⟩ := hu
  exact Single.roundsTo_ofUnpacked (Single.isNearest_round .positive e hm)

/-! ## The exception -/

/-- The only exception that is the shortest decimal of a number. -/
def lone : Decimal :=
  ⟨7038531, -32⟩

theorem eq_lone_of_shortest :
    ∀ d ∈ exceptions, d = shortest .toEven d.toSingle → d = lone := by
  decide +kernel

theorem shortest_abs (tie : TieBreak) (x : Float32) :
    shortest tie x.abs = shortest tie x := by
  have habs : x.abs.abs = x.abs := by
    apply Single.eq_of_unpacked_eq
    rw [Single.unpacked_abs, Single.unpacked_abs]
    cases Single.unpacked x <;> rfl
  unfold shortest
  rw [habs]

/-- The shortest decimal of a number is no exception, unless it is that one. -/
theorem not_mem_exceptions {x : Float32}
    (hshort : IsShort x.abs (shortest .toEven x))
    (hne : shortest .toEven x ≠ lone) : shortest .toEven x ∉ exceptions := by
  intro hmem
  refine hne (eq_lone_of_shortest _ hmem ?_)
  rw [hshort.reads, shortest_abs]

/-- What is close to the shortest decimal of a number is rounded to the number
without its sign, unless the decimal is the lone exception. -/
theorem narrow_eq_abs {x : Float32} (hx : x.isFinite = true) (hne : exact x ≠ 0)
    (hlone : shortest .toEven x ≠ lone) {u : UnpackedFloat}
    (hnormal : Double.IsNormal u)
    (herror : |Single.exactOf u - (shortest .toEven x).value| ≤
      drift * (shortest .toEven x).value)
    (hexact : (shortest .toEven x).exponent.natAbs ≤ 22 →
      ∀ (n : ℕ) (e : ℤ), n < 2 ^ 53 → (shortest .toEven x).value = n * 2 ^ e →
      Single.exactOf u = (shortest .toEven x).value) :
    signed false (narrow u) = x.abs := by
  have hshort := isShort_shortest .toEven hx hne
  have habs : x.abs.isFinite = true := (Single.isFinite_abs x).trans hx
  have hpos := Single.exact_abs_pos hne
  have hnearest :=
    hshort.nearest_eq habs hpos (not_mem_exceptions hshort hlone) herror hexact
  exact Single.eq_of_roundsTo (narrow_roundsTo hnormal) hnearest hpos.ne'

/-- The decimal that is written for a number is in the range in which scaling is
accurate. -/
theorem IsShort.asStored_bounds {x : Float32} {d : Decimal} (h : IsShort x d) :
    0 < d.asStored.significand ∧ d.asStored.significand < 2 ^ 53 ∧
      d.asStored.exponent.natAbs ≤ 50 := by
  have hexponent := exponent_asStored d
  have hleast := h.least
  have hmost := h.most
  exact ⟨significand_asStored_pos d h.pos,
    significand_asStored_lt d (h.small.trans (by norm_num)), by omega⟩

/-! ## The decimal that is stored -/

/-- The decimal that is written for a finite number without its sign. -/
def stored (x : Float32) : Decimal :=
  if x == 0 then ⟨0, 0⟩ else shortest .toEven x

section Stored

variable {x : Float32}

theorem stored_of_zero (hx : x.isFinite = true) (hzero : exact x = 0) :
    stored x = ⟨0, 0⟩ :=
  if_pos ((Single.beq_zero_iff hx).mpr hzero)

theorem stored_of_ne_zero (hx : x.isFinite = true) (hne : exact x ≠ 0) :
    stored x = shortest .toEven x :=
  if_neg (mt (Single.beq_zero_iff hx).mp hne)

theorem abs_of_zero (hx : x.isFinite = true) (hzero : exact x = 0) :
    x.abs = 0 := by
  apply Single.eq_of_unpacked_eq
  rw [Single.unpacked_abs]
  rcases Single.zero_or_finite_of_isFinite hx with ⟨s, hs⟩ | ⟨s, m, e, hm, hs⟩
  · rw [hs]
    rfl
  · have hpos : (0 : ℚ) < m * 2 ^ e :=
      mul_pos (by exact_mod_cast hm) (Single.two_zpow_pos e)
    rw [exact, hs, Single.exactOf_finite, ← abs_eq_zero, Single.abs_signed,
      abs_of_pos hpos] at hzero
    exact absurd hzero hpos.ne'

theorem significand_stored_lt (hx : x.isFinite = true) :
    (stored x).significand < 2 ^ 53 := by
  by_cases hzero : exact x = 0
  · rw [stored_of_zero hx hzero]
    norm_num
  · rw [stored_of_ne_zero hx hzero]
    exact (isShort_shortest .toEven hx hzero).small.trans (by norm_num)

/-- The stored digits of a number other than zero are scaled to the number
without its sign.  Those of the lone exception are scaled to the right side of
the midpoint. -/
theorem exists_scaled_shortest (hx : x.isFinite = true) (hne : exact x ≠ 0) :
    ∃ r, (shortest .toEven x).asStored.scaled? = some r ∧
      signed false (narrow (Double.unpacked r)) = x.abs := by
  have hshort := isShort_shortest .toEven hx hne
  by_cases hlone : shortest .toEven x = lone
  · have hreads : lone.asStored.scaled?.map
        (fun r => (signed false (narrow (Double.unpacked r))).toBits) =
          some lone.toSingle.toBits := by
      decide +kernel
    obtain ⟨r, hr, hbits⟩ := Option.map_eq_some_iff.mp hreads
    have hsame := hshort.reads
    rw [hlone] at hsame ⊢
    exact ⟨r, hr, (Single.eq_of_toBits_eq hbits).trans hsame⟩
  · obtain ⟨hpos, hsmall, hrange⟩ := hshort.asStored_bounds
    have hexponent := exponent_asStored (shortest .toEven x)
    obtain ⟨r, hscaled, hnormal, herror, hrounds⟩ :=
      exists_scalesTo_of_few hpos (by omega) hsmall
    rw [value_asStored] at herror hrounds
    exact ⟨r, hscaled,
      narrow_eq_abs hx hne hlone hnormal herror fun hfew =>
        (hrounds (by omega)).exact⟩

theorem exists_scaled_stored (hx : x.isFinite = true) :
    ∃ r, (stored x).asStored.scaled? = some r ∧
      signed false (narrow (Double.unpacked r)) = x.abs := by
  by_cases hzero : exact x = 0
  · have hreads : (⟨0, 0⟩ : Decimal).asStored.scaled?.map
        (fun r => (signed false (narrow (Double.unpacked r))).toBits) =
          some 0 := by
      decide +kernel
    obtain ⟨r, hr, hbits⟩ := Option.map_eq_some_iff.mp hreads
    rw [stored_of_zero hx hzero, abs_of_zero hx hzero]
    exact ⟨r, hr, Single.eq_of_toBits_eq hbits⟩
  · rw [stored_of_ne_zero hx hzero]
    exact exists_scaled_shortest hx hzero

end Stored

/-! ## Stored numbers -/

theorem leading_set {d : Decimal} (h : d.significand < 2 ^ 53) :
    (set .stored d).leading = d.asStored := by
  have hmagnitude := magnitude_set d
  have hsignificand :
      ofDigits ((set .stored d).whole ++ (set .stored d).fraction) =
        d.asStored.significand := congrArg significand hmagnitude
  have hsmall := significand_asStored_lt d h
  rw [← hmagnitude]
  exact leading_eq (by omega)

theorem scaledSingle?_of_not_isIntegral {n : Numeral} (h : ¬ n.IsIntegral) :
    n.scaledSingle? =
      n.leading.scaled?.map fun r =>
        signed n.negative (narrow (Double.unpacked r)) := by
  have hword : n.word? = none := by
    rw [Numeral.word?, Numeral.toInt?, if_neg h]
    rfl
  rw [Numeral.scaledSingle?, hword]
  rfl

/-- A number is its magnitude with the sign that is written in front of it. -/
theorem signed_negative {x : Float32} {u : UnpackedFloat}
    (h : signed false u = x.abs) :
    signed (setSingle .stored x).negative u = x := by
  have hsigned : signed (setSingle .stored x).negative u =
      if (setSingle .stored x).negative then
        -signed false u
      else signed false u := rfl
  have hnegative : (setSingle .stored x).negative =
      decide (x.toBits &&& 0x80000000 ≠ 0) := rfl
  have habs := Single.signed_abs_eq x
  rw [hsigned, hnegative, h]
  simpa using habs

/-- Every finite number is read back from its stored form, and keeps its sign
even if it is zero. -/
theorem scaledSingle?_setSingle {x : Float32} (hx : x.isFinite = true) :
    (setSingle .stored x).scaledSingle? = some x := by
  have hintegral : ¬ (setSingle .stored x).IsIntegral :=
    not_isIntegral_set (stored x)
  have hleading : (setSingle .stored x).leading = (stored x).asStored :=
    leading_set (significand_stored_lt hx)
  obtain ⟨r, hr, hmagnitude⟩ := exists_scaled_stored hx
  rw [scaledSingle?_of_not_isIntegral hintegral, hleading, hr, Option.map_some,
    signed_negative hmagnitude]

/-! ## The nearest double

A reader that does not scale, but rounds to the nearest double, reads back all
numbers but one: the shortest decimal of that number is so close to a midpoint
that the nearest double is the midpoint itself. -/

theorem nearestDouble_roundsTo {d : Decimal} (hpos : 0 < d.significand)
    (hrange : Double.Moderate d.value) :
    Double.RoundsTo d.value d.nearestDouble := by
  have hleast := hrange.ten_zpow_le.trans_lt (value_lt d)
  have hmost := (le_value hpos).trans_lt hrange.lt_ten_zpow
  rw [zpow_lt_zpow_iff_right₀ (by norm_num)] at hleast hmost
  have hcore : d.nearest .binary64 =
      .ofScientific .binary64 d.significand d.exponent := by
    rw [nearest, if_neg hpos.ne', if_neg (by omega), if_neg (by omega)]
  have hround : Double.RoundsTo d.value (d.nearest .binary64) := by
    rw [hcore]
    exact Double.ofScientific_roundsTo hpos hrange
  rw [nearestDouble, hround.normal.unpack_pack]
  exact hround

theorem narrow_nearestDouble_stored {x : Float32} (hx : x.isFinite = true)
    (hlone : x.abs ≠ lone.toSingle) :
    signed false (narrow (stored x).asStored.nearestDouble) = x.abs := by
  by_cases hzero : exact x = 0
  · have hreads :
        (signed false
          (narrow (⟨0, 0⟩ : Decimal).asStored.nearestDouble)).toBits = 0 := by
      decide +kernel
    rw [stored_of_zero hx hzero, abs_of_zero hx hzero]
    exact Single.eq_of_toBits_eq hreads
  · have hshort := isShort_shortest .toEven hx hzero
    have hne : shortest .toEven x ≠ lone := by
      intro heq
      exact hlone (heq ▸ hshort.reads.symm)
    rw [stored_of_ne_zero hx hzero]
    obtain ⟨hpos, hsmall, hrange⟩ := hshort.asStored_bounds
    have hmoderate :=
      moderate_value hpos (by omega) (hsmall.trans (by norm_num))
    have hround := nearestDouble_roundsTo hpos hmoderate
    rw [value_asStored] at hround
    refine narrow_eq_abs hx hzero hne hround.normal ?_ fun _ => hround.exact
    have hdrift : 1 / 2 ^ 53 ≤ drift := by norm_num [drift]
    calc |Single.exactOf (shortest .toEven x).asStored.nearestDouble -
        (shortest .toEven x).value|
        ≤ (shortest .toEven x).value / 2 ^ 53 := hround.error
      _ = 1 / 2 ^ 53 * (shortest .toEven x).value := by ring
      _ ≤ drift * (shortest .toEven x).value :=
        mul_le_mul_of_nonneg_right hdrift (value_nonneg _)

/-- Every finite number but one, with either sign, is read back from its stored
form by way of the nearest double. -/
theorem toSingle_setSingle {x : Float32} (hx : x.isFinite = true)
    (hlone : x.abs ≠ lone.toSingle) : (setSingle .stored x).toSingle = x := by
  have hmagnitude : (setSingle .stored x).magnitude = (stored x).asStored :=
    magnitude_set (stored x)
  rw [Numeral.toSingle, hmagnitude]
  exact signed_negative (narrow_nearestDouble_stored hx hlone)

example : (setSingle .stored lone.toSingle).toSingle.toBits =
  lone.toSingle.toBits + 1 := by
  decide +kernel

end PitchFollower.Decimal
