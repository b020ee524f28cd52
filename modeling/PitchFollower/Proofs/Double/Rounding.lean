import PitchFollower.Proofs.Decimal.Digits
import PitchFollower.Proofs.Single.Places

/-!
# Rounding in double precision

Away from the ends of the range a double precision result has a full mantissa of
53 bits.  Its relative error is then at most half a bit in the last of them, and
a result that fits is not rounded at all.  This is all that is needed of double
precision numbers here: they only serve as intermediate results.
-/

namespace PitchFollower.Double

open Float.Model (Format UnpackedFloat totalExponent)
open Float.Model.UnpackedFloat
open Single (StandsFor exactOf exactOf_finite nearestInt two_zpow_pos)

/-! ## Packing and unpacking -/

/-- A positive number with a full mantissa. -/
def IsNormal (u : UnpackedFloat) : Prop :=
  ∃ (m : ℕ) (e : ℤ) (hm : 0 < m), u = .finite .positive m e hm ∧
    2 ^ 52 ≤ m ∧ m < 2 ^ 53 ∧ -1074 ≤ e ∧ e ≤ 971

/-- Packing a number with a full mantissa loses nothing. -/
theorem IsNormal.unpack_pack {u : UnpackedFloat} (hu : IsNormal u) :
    unpack .binary64 (pack .binary64 u) = u := by
  obtain ⟨m, e, hm, rfl, hlow, hhigh, hleast, hmost⟩ := hu
  have hmost' : e + 52 ≤ 1023 := add_le_of_le_sub_right hmost
  exact Binary.unpack_pack_of_full hm hlow hhigh hleast hmost'

/-! ## Rounded results -/

/-- An exact result that a full mantissa has room for. -/
structure Moderate (q : ℚ) : Prop where
  low : 2 ^ (-1022 : ℤ) ≤ q
  high : q < 2 ^ (1023 : ℤ)

/-- `u` is what rounding makes of a number with `r` in its last of 53 places,
whose exponent is `t`. -/
structure RoundedAt (r : ℚ) (t : ℤ) (u : UnpackedFloat) : Prop where
  low : 2 ^ 52 ≤ r
  high : r < 2 ^ 53
  normal : IsNormal u
  exactOf_eq : exactOf u = nearestInt r * 2 ^ t

/-- `u` is the exact result `q`, rounded. -/
def RoundsTo (q : ℚ) (u : UnpackedFloat) : Prop :=
  ∃ r t, RoundedAt r t u ∧ q = r * 2 ^ t

section Moderate

variable {q : ℚ}

theorem Moderate.pos (h : Moderate q) : 0 < q :=
  (two_zpow_pos _).trans_le h.low

theorem Moderate.log_bounds (h : Moderate q) :
    -1022 ≤ Int.log 2 q ∧ Int.log 2 q < 1023 :=
  ⟨(Int.zpow_le_iff_le_log (by norm_num) h.pos).mp (by exact_mod_cast h.low),
    (Int.lt_zpow_iff_log_lt (by norm_num) h.pos).mp (by exact_mod_cast h.high)⟩

/-- Three binary places are less than a decimal one. -/
theorem two_zpow_le_ten_zpow : (2 : ℚ) ^ (1200 : ℤ) ≤ 10 ^ (400 : ℤ) :=
  calc (2 : ℚ) ^ (1200 : ℤ) = (2 ^ (3 : ℤ)) ^ (400 : ℤ) := zpow_mul 2 3 400
    _ ≤ 10 ^ (400 : ℤ) :=
      zpow_le_zpow_left₀ (by norm_num) (by norm_num) (by norm_num)

theorem Moderate.lt_ten_zpow (h : Moderate q) : q < 10 ^ (400 : ℤ) :=
  calc q < 2 ^ (1023 : ℤ) := h.high
    _ ≤ 2 ^ (1200 : ℤ) := zpow_le_zpow_right₀ (by norm_num) (by norm_num)
    _ ≤ 10 ^ (400 : ℤ) := two_zpow_le_ten_zpow

theorem Moderate.ten_zpow_le (h : Moderate q) : 10 ^ (-400 : ℤ) ≤ q :=
  calc (10 : ℚ) ^ (-400 : ℤ) ≤ 2 ^ (-1200 : ℤ) := by
        rw [zpow_neg, zpow_neg]
        exact inv_anti₀ (two_zpow_pos _) two_zpow_le_ten_zpow
    _ ≤ 2 ^ (-1022 : ℤ) := zpow_le_zpow_right₀ (by norm_num) (by norm_num)
    _ ≤ q := h.low

end Moderate

theorem targetExponent_eq (total : ℤ) :
    Format.binary64.targetExponent total = max (total - 53) (-1074) := by
  simp only [Format.targetExponent, Binary.mantissaBits_eq, Format.minExponent]
  norm_num

theorem roundedAt_roundWithAccuracy {m k : ℕ} {e : ℤ} {acc : Accuracy} {q : ℚ}
    (hstands : StandsFor (.ofMantissaAndAccuracy m acc) q)
    (hlog : Int.log 2 q = m.log2) (hpos : 0 < q) (hk : m.log2 = 52 + k)
    (hleast : -1074 ≤ e + k) (hmost : e + k ≤ 970) :
    RoundedAt (q / 2 ^ k) (e + k)
      (roundWithAccuracy .binary64 .positive m e acc) := by
  have htarget :
      Format.binary64.targetExponent (totalExponent m e) = e + k := by
    rw [targetExponent_eq, totalExponent]
    omega
  have hshift :=
    Binary.shiftToTargetExponent_eq acc (show e + k - e = k by omega) htarget
  have hround := (hstands.shiftRight k).roundedMantissa_eq
  generalize hn :
    (ExtendedMantissa.ofMantissaAndAccuracy m acc >>> k).roundedMantissa = n
    at hround
  have hlow : (2 : ℚ) ^ 52 ≤ q / 2 ^ k := by
    have hle := Int.zpow_log_le_self (b := 2) (by norm_num) hpos
    rw [hlog, hk] at hle
    rw [le_div_iff₀ (by positivity), ← pow_add]
    exact_mod_cast hle
  have hhigh : q / 2 ^ k < 2 ^ 53 := by
    have hlt := Int.lt_zpow_succ_log_self (b := 2) (by norm_num) q
    rw [hlog, hk, show ((52 + k : ℕ) : ℤ) + 1 = (53 + k : ℕ) by omega] at hlt
    rw [div_lt_iff₀ (by positivity), ← pow_add]
    exact_mod_cast hlt
  have hnlow : 2 ^ 52 ≤ n := by
    have hle : ((2 ^ 52 : ℕ) : ℤ) ≤ n :=
      hround ▸ Single.le_nearestInt (by exact_mod_cast hlow)
    exact_mod_cast hle
  have hnhigh : n ≤ 2 ^ 53 := by
    have hle : (n : ℤ) ≤ ((2 ^ 53 : ℕ) : ℤ) :=
      hround ▸ Single.nearestInt_le (by exact_mod_cast hhigh.le)
    exact_mod_cast hle
  have hpos' : n ≠ 0 := ((Nat.two_pow_pos 52).trans_le hnlow).ne'
  have hcases : roundWithAccuracy .binary64 .positive m e acc =
      if n < 2 ^ 53 then .finite .positive n (e + k) (Nat.pos_of_ne_zero hpos')
      else .finite .positive (2 ^ 52) (e + k + 1) (Nat.two_pow_pos 52) :=
    (Binary.roundWithAccuracy_eq hleast (congrArg Prod.snd hshift)
      (by rw [hshift]; exact hn)
      hnhigh).trans (dif_neg hpos')
  by_cases hlt : n < 2 ^ 53
  · rw [hcases, if_pos hlt]
    refine ⟨hlow, hhigh, ⟨n, e + k, _, rfl, hnlow, hlt, hleast, by omega⟩, ?_⟩
    rw [← hround, exactOf_finite, Single.signed, Int.cast_natCast]
  · rw [hcases, if_neg hlt]
    refine ⟨hlow, hhigh,
      ⟨2 ^ 52, e + k + 1, _, rfl, le_rfl, by norm_num, by omega, by omega⟩, ?_⟩
    obtain rfl : n = 2 ^ 53 := by omega
    rw [← hround, exactOf_finite, Single.signed, zpow_add_one₀ (by norm_num)]
    push_cast
    ring

/-- A number with 53 places before the point is a whole number if it has no more
than 53 places altogether. -/
theorem exists_eq_intCast_of_fits {r : ℚ} {t e : ℤ} {n : ℕ} (hlow : 2 ^ 52 ≤ r)
    (hn : n < 2 ^ 53) (h : r * 2 ^ t = n * 2 ^ e) : ∃ i : ℤ, r = i := by
  have hplaces : (2 : ℚ) ^ (52 + t) < 2 ^ (53 + e) := by
    have hn' : (n : ℚ) < 2 ^ (53 : ℤ) := by exact_mod_cast hn
    calc (2 : ℚ) ^ (52 + t) = 2 ^ (52 : ℤ) * 2 ^ t :=
          zpow_add₀ (by norm_num) _ _
      _ ≤ r * 2 ^ t :=
        mul_le_mul_of_nonneg_right (by exact_mod_cast hlow) (two_zpow_pos t).le
      _ = n * 2 ^ e := h
      _ < 2 ^ (53 : ℤ) * 2 ^ e := mul_lt_mul_of_pos_right hn' (two_zpow_pos e)
      _ = 2 ^ (53 + e) := (zpow_add₀ (by norm_num) _ _).symm
  have hle : t ≤ e := by
    have := (zpow_lt_zpow_iff_right₀ (by norm_num : (1 : ℚ) < 2)).mp hplaces
    omega
  obtain ⟨j, rfl⟩ := Int.le.dest hle
  refine ⟨n * 2 ^ j, mul_right_cancel₀ (two_zpow_pos t).ne' ?_⟩
  rw [h, zpow_add₀ (by norm_num), zpow_natCast]
  push_cast
  ring

namespace RoundsTo

variable {q r : ℚ} {u v : UnpackedFloat}

theorem normal (h : RoundsTo q u) : IsNormal u := by
  obtain ⟨r, t, hrounded, -⟩ := h
  exact hrounded.normal

theorem error (h : RoundsTo q u) : |exactOf u - q| ≤ q / 2 ^ 53 := by
  obtain ⟨r, t, ⟨hlow, -, -, hexact⟩, rfl⟩ := h
  have htpos := two_zpow_pos t
  have hhalf := Single.abs_nearestInt_sub_le r
  rw [hexact, ← sub_mul, abs_mul, abs_of_pos htpos, mul_div_right_comm]
  refine mul_le_mul_of_nonneg_right (hhalf.trans ?_) htpos.le
  rw [le_div_iff₀ (by positivity)]
  linarith

theorem exact (h : RoundsTo q u) (n : ℕ) (e : ℤ) (hn : n < 2 ^ 53)
    (hq : q = n * 2 ^ e) : exactOf u = q := by
  obtain ⟨r, t, ⟨hlow, -, -, hexact⟩, rfl⟩ := h
  obtain ⟨i, rfl⟩ := exists_eq_intCast_of_fits hlow hn hq
  rw [hexact, Single.nearestInt_intCast]

/-- Rounding keeps the order: between numbers with different last places there
is a power of two. -/
theorem mono (h : RoundsTo q u) (h' : RoundsTo r v) (hle : q ≤ r) :
    exactOf u ≤ exactOf v := by
  obtain ⟨a, t, ⟨halow, hahigh, -, hu⟩, rfl⟩ := h
  obtain ⟨b, s, ⟨hblow, hbhigh, -, hv⟩, rfl⟩ := h'
  have htpos := two_zpow_pos t
  have hspos := two_zpow_pos s
  have hpower {i j : ℤ} (hij : i < j) : (2 : ℚ) ^ 53 * 2 ^ i ≤ 2 ^ 52 * 2 ^ j :=
    calc (2 : ℚ) ^ 53 * 2 ^ i = 2 ^ 52 * 2 ^ (i + 1) := by
          rw [zpow_add_one₀ (by norm_num)]
          ring
      _ ≤ 2 ^ 52 * 2 ^ j :=
          mul_le_mul_of_nonneg_left (zpow_le_zpow_right₀ (by norm_num) hij)
            (by norm_num)
  have hleast : ((2 ^ 52 : ℤ) : ℚ) ≤ Single.nearestInt b := by
    exact_mod_cast Single.le_nearestInt (show ((2 ^ 52 : ℤ) : ℚ) ≤
      b by exact_mod_cast hblow)
  have hmost : (Single.nearestInt a : ℚ) ≤ (2 ^ 53 : ℤ) := by
    exact_mod_cast Single.nearestInt_le
      (show a ≤ ((2 ^ 53 : ℤ) : ℚ) by exact_mod_cast hahigh.le)
  push_cast at hleast hmost
  rw [hu, hv]
  rcases lt_trichotomy t s with hlt | rfl | hlt
  · calc (Single.nearestInt a : ℚ) * 2 ^ t
        ≤ 2 ^ 53 * 2 ^ t := mul_le_mul_of_nonneg_right hmost htpos.le
      _ ≤ 2 ^ 52 * 2 ^ s := hpower hlt
      _ ≤ Single.nearestInt b * 2 ^ s :=
        mul_le_mul_of_nonneg_right hleast hspos.le
  · have hab : a ≤ b := le_of_mul_le_mul_right hle htpos
    exact mul_le_mul_of_nonneg_right
      (by exact_mod_cast Single.nearestInt_mono hab) htpos.le
  · refine absurd hle (not_le.mpr ?_)
    calc b * 2 ^ s < 2 ^ 53 * 2 ^ s := mul_lt_mul_of_pos_right hbhigh hspos
      _ ≤ 2 ^ 52 * 2 ^ t := hpower hlt
      _ ≤ a * 2 ^ t := mul_le_mul_of_nonneg_right halow htpos.le

end RoundsTo

/-- A number with a full mantissa is what it is rounded to. -/
theorem IsNormal.roundsTo {u : UnpackedFloat} (h : IsNormal u) :
    RoundsTo (exactOf u) u := by
  have hnormal := h
  obtain ⟨m, e, hm, rfl, hlow, hhigh, -⟩ := h
  refine ⟨m, e,
    ⟨by exact_mod_cast hlow, by exact_mod_cast hhigh, hnormal, ?_⟩, rfl⟩
  have hint := Single.nearestInt_intCast m
  rw [Int.cast_natCast] at hint
  rw [hint, exactOf_finite, Single.signed, Int.cast_natCast]

/-- Rounding a full mantissa with its accuracy. -/
theorem roundsTo_roundWithAccuracy {m : ℕ} {e : ℤ} {acc : Accuracy} {q : ℚ}
    (hstands : StandsFor (.ofMantissaAndAccuracy m acc) q) (hm : 2 ^ 52 ≤ m)
    (hrange : Moderate (q * 2 ^ e)) :
    RoundsTo (q * 2 ^ e) (roundWithAccuracy .binary64 .positive m e acc) := by
  have hpos : 0 < q := pos_of_mul_pos_left hrange.pos (two_zpow_pos e).le
  have hfloor := hstands.floor_eq
  rw [Binary.mantissa_ofMantissaAndAccuracy] at hfloor
  have hlog : Int.log 2 q = m.log2 := Single.log_eq_log2 (by omega) hfloor
  obtain ⟨hleast, hmost⟩ := hrange.log_bounds
  rw [Single.log_mul_zpow hpos, hlog] at hleast hmost
  obtain ⟨k, hk⟩ := Nat.exists_eq_add_of_le ((Nat.le_log2 (by omega)).mpr hm)
  refine ⟨_, _, roundedAt_roundWithAccuracy hstands hlog hpos hk
    (show -1074 ≤ e + k by omega) (by omega), ?_⟩
  rw [← Single.mul_zpow_div_zpow q (show e + k - e = k by omega),
    div_mul_cancel₀ _ (two_zpow_pos _).ne']

/-! ## Operations -/

/-- Rounding a positive triple. -/
theorem roundsTo_round {m : ℕ} {e : ℤ} (hm : 0 < m)
    (hrange : Moderate (m * 2 ^ e)) :
    RoundsTo (m * 2 ^ e) (UnpackedFloat.round .binary64 .positive m e) := by
  have hpos : (0 : ℚ) < m := by exact_mod_cast hm
  obtain ⟨hleast, -⟩ := hrange.log_bounds
  rw [Single.log_mul_zpow hpos, Int.log_natCast,
    ← Nat.log2_eq_log_two] at hleast
  unfold UnpackedFloat.round
  generalize hk : (e -
    Format.binary64.targetExponent (totalExponent m e)).toNat = k
  rw [targetExponent_eq, totalExponent] at hk
  have hexact : ((m * 2 ^ k : ℕ) : ℚ) * 2 ^ (e - k) = m * 2 ^ e := by
    push_cast
    exact Single.mul_pow_mul_zpow_sub m e k
  have hfull : 2 ^ 52 ≤ m * 2 ^ k := by
    have hself := Nat.log2_self_le hm.ne'
    calc 2 ^ 52 ≤ 2 ^ (m.log2 + k) :=
          Nat.pow_le_pow_right (by norm_num) (by omega)
      _ = 2 ^ m.log2 * 2 ^ k := pow_add _ _ _
      _ ≤ m * 2 ^ k := Nat.mul_le_mul_right _ hself
  rw [← hexact] at hrange ⊢
  have hround :=
    roundsTo_roundWithAccuracy (Single.standsFor_exact _) hfull hrange
  simpa only [decreaseExponent, hk, Nat.shiftLeft_eq, targetExponent_eq,
    totalExponent] using hround

theorem roundsTo_mul {m n : ℕ} {e f : ℤ} (hm : 2 ^ 52 ≤ m) (hn : 0 < n)
    (hrange : Moderate (m * 2 ^ e * (n * 2 ^ f))) :
    RoundsTo (m * 2 ^ e * (n * 2 ^ f))
      (roundWithAccuracy .binary64 .positive (m * n) (e + f) .exact) := by
  have hexact : ((m * n : ℕ) : ℚ) * 2 ^ (e + f) = m * 2 ^ e * (n * 2 ^ f) := by
    rw [zpow_add₀ (by norm_num)]
    push_cast
    ring
  rw [← hexact] at hrange ⊢
  exact roundsTo_roundWithAccuracy (Single.standsFor_exact _)
    (hm.trans (Nat.le_mul_of_pos_right m hn)) hrange

theorem roundsTo_divCore {m n : ℕ} {e f : ℤ} (hm : 0 < m) (hn : 0 < n)
    (hrange : Moderate (m * 2 ^ e / (n * 2 ^ f))) :
    let quotient := divCore .binary64 m e n f
    RoundsTo (m * 2 ^ e / (n * 2 ^ f))
      (roundWithAccuracy .binary64 .positive quotient.1 quotient.2.1
        quotient.2.2) := by
  have hn' : (0 : ℚ) < n := by exact_mod_cast hn
  have hlog := Single.log_div_bounds e f hm hn
  obtain ⟨hleast, -⟩ := hrange.log_bounds
  simp only [divCore, targetExponent_eq, totalExponent]
  generalize ht : min (e - f)
    (max (m.log2 + 1 + e - (n.log2 + 1 + f) - 53) (-1074)) = t
  generalize hk : (e - f - t).toNat = k
  rw [Nat.shiftLeft_eq]
  have hexact := Single.div_mul_zpow m hn (show t = e - f - k by omega)
  have hfull : 2 ^ 52 ≤ m * 2 ^ k / n := by
    have hle := Int.zpow_log_le_self (b := 2) (by norm_num) hrange.pos
    have hplace : (2 : ℚ) ^ (52 + t) ≤ m * 2 ^ e / (n * 2 ^ f) :=
      (zpow_le_zpow_right₀ (by norm_num) (by omega)).trans hle
    rw [← hexact, zpow_add₀ (by norm_num),
      mul_le_mul_iff_of_pos_right (two_zpow_pos t), le_div_iff₀ hn'] at hplace
    rw [Nat.le_div_iff_mul_le hn]
    exact_mod_cast hplace
  rw [← hexact] at hrange ⊢
  exact roundsTo_roundWithAccuracy (Single.standsFor_fraction _ hn) hfull hrange

/-! ## Numbers -/

/-- The sign, mantissa and exponent of a number. -/
def unpacked (x : Float) : UnpackedFloat :=
  x.toModel.unpack

/-- The exact value of a finite number. -/
def exact (x : Float) : ℚ :=
  exactOf (unpacked x)

theorem RoundsTo.unpacked_eq {q : ℚ} {u : UnpackedFloat} (h : RoundsTo q u) :
    unpacked (.ofModel (.pack u)) = u :=
  h.normal.unpack_pack

theorem IsNormal.isInf_eq_false {x : Float} (h : IsNormal (unpacked x)) :
    x.isInf = false := by
  obtain ⟨m, e, hm, hx, -⟩ := h
  change (unpacked x).isInf = false
  rw [hx]
  rfl

theorem moderate_natCast {n : ℕ} (hpos : 0 < n) (hn : n < 2 ^ 64) :
    Moderate n where
  low :=
    calc (2 : ℚ) ^ (-1022 : ℤ) ≤ 2 ^ (0 : ℤ) :=
          zpow_le_zpow_right₀ (by norm_num) (by norm_num)
      _ ≤ n := by exact_mod_cast hpos
  high :=
    calc (n : ℚ) < 2 ^ (64 : ℤ) := by exact_mod_cast hn
      _ ≤ 2 ^ (1023 : ℤ) := zpow_le_zpow_right₀ (by norm_num) (by norm_num)

theorem toFloat_roundsTo {n : ℕ} (hpos : 0 < n) (hn : n < 2 ^ 64) :
    RoundsTo n (unpacked n.toUInt64.toFloat) := by
  have hword : n.toUInt64.toNat = n := UInt64.toNat_ofNat_of_lt' hn
  have hround :
      RoundsTo (n * 2 ^ (0 : ℤ))
        (UnpackedFloat.round .binary64 .positive n 0) :=
    roundsTo_round hpos (by simpa using moderate_natCast hpos hn)
  have hnormalize : UnpackedFloat.normalize .binary64 n 0 .positive =
      .round .binary64 .positive n 0 := by
    unfold UnpackedFloat.normalize
    rw [Int.compare_eq_gt.mpr (by exact_mod_cast hpos)]
    rfl
  have hmodel : unpacked n.toUInt64.toFloat =
      unpacked (.ofModel
        (.pack (.normalize .binary64 n.toUInt64.toNat 0 .positive))) := rfl
  rw [hmodel, hword, hnormalize, hround.unpacked_eq]
  simpa using hround

/-- A whole number of 53 bits is not rounded. -/
theorem toFloat_spec {n : ℕ} (hpos : 0 < n) (hn : n < 2 ^ 53) :
    IsNormal (unpacked n.toUInt64.toFloat) ∧ exact n.toUInt64.toFloat = n := by
  have hround := toFloat_roundsTo hpos (hn.trans (by norm_num))
  exact ⟨hround.normal, hround.exact n 0 hn (by rw [zpow_zero, mul_one])⟩

/-- A word of 32 bits is converted as a longer one. -/
theorem toFloat_eq (word : UInt32) :
    word.toFloat = word.toNat.toUInt64.toFloat := by
  have hword : word.toNat.toUInt64.toNat = word.toNat :=
    UInt64.toNat_ofNat_of_lt' (word.toNat_lt.trans (by decide))
  change Float.ofModel (.pack (.normalize .binary64 word.toNat 0 .positive)) =
    Float.ofModel
      (.pack (.normalize .binary64 word.toNat.toUInt64.toNat 0 .positive))
  rw [hword]

section Operations

variable {x y : Float}

theorem mul_roundsTo (hx : IsNormal (unpacked x)) (hy : IsNormal (unpacked y))
    (hrange : Moderate (exact x * exact y)) :
    RoundsTo (exact x * exact y) (unpacked (x * y)) := by
  have hmodel : unpacked (x * y) =
      unpacked (.ofModel (.pack (mul .binary64 (unpacked x) (unpacked y)))) :=
        rfl
  unfold exact at *
  obtain ⟨m, e, hm, hux, hfull, -⟩ := hx
  obtain ⟨n, f, hn, huy, -⟩ := hy
  rw [hux, huy, exactOf_finite, exactOf_finite] at hrange
  have hround := roundsTo_mul (e := e) (f := f) hfull hn hrange
  rw [hmodel, hux, huy, exactOf_finite, exactOf_finite, Binary.mul_finite,
    show Sign.positive * .positive = .positive from rfl, hround.unpacked_eq]
  exact hround

theorem div_roundsTo (hx : IsNormal (unpacked x)) (hy : IsNormal (unpacked y))
    (hrange : Moderate (exact x / exact y)) :
    RoundsTo (exact x / exact y) (unpacked (x / y)) := by
  have hmodel : unpacked (x / y) =
      unpacked (.ofModel (.pack (div .binary64 (unpacked x) (unpacked y)))) :=
        rfl
  unfold exact at *
  obtain ⟨m, e, hm, hux, -⟩ := hx
  obtain ⟨n, f, hn, huy, -⟩ := hy
  rw [hux, huy, exactOf_finite, exactOf_finite] at hrange
  have hround := roundsTo_divCore (e := e) (f := f) hm hn hrange
  rw [hmodel, hux, huy, exactOf_finite, exactOf_finite, Binary.div_finite,
    show Sign.positive / .positive = .positive from rfl, hround.unpacked_eq]
  exact hround

end Operations

/-! ## Decimals -/

/-- A decimal in this range does not have one of the exponents that core settles
by themselves. -/
theorem exponent_bounds {n : ℕ} {k : ℤ} (hn : 0 < n)
    (hrange : Moderate (n * 10 ^ k)) : k < 400 ∧ -400 < n.log2 + 1 + k := by
  have hmost := (Decimal.le_mul_ten_zpow hn k).trans_lt hrange.lt_ten_zpow
  have hleast := hrange.ten_zpow_le.trans_lt (Decimal.mul_ten_zpow_lt n k)
  exact ⟨(zpow_lt_zpow_iff_right₀ (by norm_num)).mp hmost,
    (zpow_lt_zpow_iff_right₀ (by norm_num)).mp hleast⟩

/-- The product or quotient with a power of ten that core computes for a
decimal. -/
theorem ofScientific_roundsTo {n : ℕ} {k : ℤ} (hn : 0 < n)
    (hrange : Moderate (n * 10 ^ k)) :
    RoundsTo (n * 10 ^ k) (UnpackedFloat.ofScientific .binary64 n k) := by
  obtain ⟨hmost, hleast⟩ := exponent_bounds hn hrange
  unfold UnpackedFloat.ofScientific
  rw [dif_neg hn.ne', if_neg (by norm_num; omega), if_neg (by norm_num; omega)]
  rcases le_or_gt 0 k with hsign | hsign
  · obtain ⟨j, rfl⟩ := Int.eq_ofNat_of_zero_le hsign
    have hexact : ((n * 2 ^ 53 : ℕ) : ℚ) * 2 ^ (-53 : ℤ) *
      ((10 ^ j : ℕ) * 2 ^ (0 : ℤ)) =
        n * 10 ^ (j : ℤ) := by
      rw [zpow_natCast]
      push_cast
      norm_num
      ring
    have hfull : 2 ^ 52 ≤ n * 2 ^ 53 :=
      (show 2 ^ 52 ≤ 1 * 2 ^ 53 by norm_num).trans (Nat.mul_le_mul_right _ hn)
    rw [← hexact] at hrange ⊢
    have hround := roundsTo_mul hfull (Nat.pow_pos (by norm_num)) hrange
    rw [if_pos hsign, Binary.mul_finite, Nat.shiftLeft_eq, Int.toNat_natCast]
    exact hround
  · obtain ⟨j, hj⟩ := Int.eq_ofNat_of_zero_le (neg_nonneg.mpr hsign.le)
    obtain rfl : k = -j := by omega
    have hexact : (n : ℚ) * 2 ^ (0 : ℤ) / ((10 ^ j : ℕ) * 2 ^ (0 : ℤ)) =
        n * 10 ^ (-(j : ℤ)) := by
      rw [zpow_neg, zpow_natCast]
      push_cast
      norm_num
      rfl
    rw [← hexact] at hrange ⊢
    have hround := roundsTo_divCore hn (Nat.pow_pos (by norm_num)) hrange
    rw [if_neg (by omega), Binary.div_finite, neg_neg, Int.toNat_natCast]
    exact hround

end PitchFollower.Double
