import PitchFollower.Proofs.Single.Magnitude
import PitchFollower.Proofs.Tuning.Range

/-!
# Tones descend as periods grow

The frequency of a period falls as the period grows, and rounding keeps it from
rising.  A tone is settled by a scan from the lowest tone upwards that stops at
the first boundary above the frequency, so a lower frequency stops no later,
wherever the rounded boundaries lie.
-/

namespace PitchFollower

open Single

/-! ## Scales -/

namespace Scale

/-- The place of a tone that stands in a scale once, counted from the lowest
tone. -/
def IsPlace (s : Scale) (t : Tone) (i : ℕ) : Prop :=
  ∀ k, s.tones[k]? = some t ↔ k = i

theorem pairwise_of_ascending {tones : List Tone}
    (haudible : ∀ t ∈ tones, t.Audible) (h : Ascending tones) :
    tones.Pairwise fun t u => exact t.frequency < exact u.frequency := by
  rw [← List.isChain_iff_pairwise]
  induction tones with
  | nil => exact List.isChain_nil
  | cons t rest ih =>
    cases rest with
    | nil => exact List.isChain_singleton t
    | cons u rest =>
      obtain ⟨hlt, hrest⟩ := h
      have htu :=
        (lt_iff (haudible t (by simp)).1 (haudible u (by simp)).1).mp hlt
      exact List.isChain_cons_cons.mpr
        ⟨htu, ih (fun x hx => haudible x (List.mem_cons_of_mem t hx)) hrest⟩

/-- The exact frequencies of a scale ascend strictly. -/
theorem pairwise_tones (s : Scale) :
    s.tones.Pairwise fun t u => exact t.frequency < exact u.frequency :=
  pairwise_of_ascending s.audible s.ascending

theorem isPlace_of_getElem? {s : Scale} {t : Tone} {i : ℕ}
    (h : s.tones[i]? = some t) : s.IsPlace t i := by
  intro k
  constructor
  · intro hk
    obtain ⟨hi, rfl⟩ := List.getElem?_eq_some_iff.mp h
    obtain ⟨hlt, heq⟩ := List.getElem?_eq_some_iff.mp hk
    have hpairs := List.pairwise_iff_getElem.mp s.pairwise_tones
    rcases lt_trichotomy k i with hki | rfl | hik
    · have hbelow := hpairs k i hlt hi hki
      rw [heq] at hbelow
      exact absurd hbelow (lt_irrefl _)
    · rfl
    · have hbelow := hpairs i k hi hlt hik
      rw [heq] at hbelow
      exact absurd hbelow (lt_irrefl _)
  · rintro rfl
    exact h

theorem settle_mem (frequency : Float32) (t : Tone) (above : List Tone) :
    settle frequency t above ∈ t :: above := by
  induction above generalizing t with
  | nil => exact List.mem_cons_self
  | cons u rest ih =>
    rw [settle]
    split_ifs
    · exact List.mem_cons_self
    · exact List.mem_cons_of_mem t (ih u)

/-- A frequency that is below every boundary that another one is below settles
no later. -/
theorem exists_settle_le {f g : Float32} (h : ∀ z : Float32, g < z → f < z)
    (t : Tone) (above : List Tone) :
    ∃ i j : ℕ, i ≤ j ∧ (t :: above)[i]? = some (settle f t above) ∧
      (t :: above)[j]? = some (settle g t above) := by
  induction above generalizing t with
  | nil => exact ⟨0, 0, le_rfl, rfl, rfl⟩
  | cons u rest ih =>
    by_cases hf : f < midpoint t u
    · obtain ⟨j, hj⟩ := List.mem_iff_getElem?.mp (settle_mem g t (u :: rest))
      refine ⟨0, j, Nat.zero_le j, ?_, hj⟩
      rw [settle, if_pos hf]
      rfl
    · obtain ⟨i, j, hij, hi, hj⟩ := ih u
      refine ⟨i + 1, j + 1, Nat.succ_le_succ hij, ?_, ?_⟩
      · rw [settle, if_neg hf]
        exact hi
      · rw [settle, if_neg (mt (h _) hf)]
        exact hj

theorem bounds_of_nearest? {s : Scale} {frequency : Float32} {t : Tone}
    (h : s.nearest? frequency = some t) :
    frequency.isFinite = true ∧ exact s.lowest.frequency ≤ exact frequency ∧
      exact frequency ≤ exact s.highest.frequency ∧
      settle frequency s.lowest s.above = t := by
  have hlowest := (s.audible s.lowest List.mem_cons_self).1
  have hhighest := (s.audible s.highest s.highest_mem).1
  unfold nearest? at h
  split_ifs at h with hout
  simp only [not_or, Bool.not_eq_false] at hout
  obtain ⟨hfinite, hlow, hhigh⟩ := hout
  rw [lt_iff hfinite hlowest, not_lt] at hlow
  rw [lt_iff hhighest hfinite, not_lt] at hhigh
  exact ⟨hfinite, hlow, hhigh, Option.some_inj.mp h⟩

end Scale

/-! ## Quantizers -/

namespace Quantizer

section Periods

variable {q : Quantizer} {p r x : Float32} {t u : Tone}

theorem tone?_eq_some_iff : q.tone? p = some t ↔
    IsPositive p ∧ q.scale.nearest? (q.sampleRate / p) = some t := by
  unfold tone? frequency?
  split_ifs with hpositive
  · exact (and_iff_right hpositive).symm
  · constructor
    · intro h
      cases h
    · rintro ⟨hpositive', -⟩
      exact absurd hpositive' hpositive

/-- The frequency of a positive period is the exact one, rounded. -/
theorem frequency_roundsTo (q : Quantizer) (hp : IsPositive p) :
    0 < exact p ∧ 0 < exact q.sampleRate ∧
      RoundsTo (exact q.sampleRate / exact p) (q.sampleRate / p) := by
  obtain ⟨hrate, hratepos⟩ := (isPositive_iff _).mp q.positive
  obtain ⟨hfinite, hpos⟩ := (isPositive_iff _).mp hp
  exact ⟨hpos, hratepos, div_roundsTo hrate hfinite hpos.ne'⟩

/-- A longer period has no higher frequency, and a finite one if the shorter one
has. -/
theorem frequency_antitone (hp : IsPositive p) (hx : IsPositive x) (hle : p ≤ x)
    (hfinite : (q.sampleRate / p).isFinite = true) :
    (q.sampleRate / x).isFinite = true ∧
      exact (q.sampleRate / x) ≤ exact (q.sampleRate / p) := by
  obtain ⟨hppos, hrate, hpround⟩ := q.frequency_roundsTo hp
  obtain ⟨hxpos, -, hxround⟩ := q.frequency_roundsTo hx
  have hexact := (le_iff hp.1 hx.1).mp hle
  have hquot : exact q.sampleRate / exact x ≤ exact q.sampleRate / exact p :=
    div_le_div_of_nonneg_left hrate.le hppos hexact
  have hrange : nearest (exact q.sampleRate / exact p) < 2 ^ 128 := by
    rw [← hpround.exact_eq hfinite]
    exact (le_abs_self _).trans_lt (abs_exact_lt _)
  have hwithin := hxround.within_nearest
    ((abs_of_pos (div_pos hrate hxpos)).trans_le hquot) hrange
  rw [← hpround.exact_eq hfinite] at hwithin
  exact ⟨hwithin.isFinite, (le_abs_self _).trans hwithin.abs_le⟩

theorem isPositive_of_between (hp : IsPositive p) (hr : IsPositive r)
    (hlow : p ≤ x) (hhigh : x ≤ r) : IsPositive x := by
  have hfinite := isFinite_of_le_of_le hp.1 hr.1 hlow hhigh
  rw [isPositive_iff] at hp ⊢
  exact ⟨hfinite, hp.2.trans_le ((le_iff hp.1 hfinite).mp hlow)⟩

end Periods

/-- Of two periods with a tone, the longer one has a tone that stands at the
same place of the scale or further down, and every period between them has a
tone too. -/
theorem tones_descend {q : Quantizer} {p r : Float32} {t u : Tone} (hle : p ≤ r)
    (ht : q.tone? p = some t) (hu : q.tone? r = some u) :
    (∃ i j : ℕ, q.scale.IsPlace t i ∧ q.scale.IsPlace u j ∧ j ≤ i) ∧
      ∀ x, p ≤ x → x ≤ r → (q.tone? x).isSome = true := by
  obtain ⟨hp, hpnearest⟩ := tone?_eq_some_iff.mp ht
  obtain ⟨hr, hrnearest⟩ := tone?_eq_some_iff.mp hu
  obtain ⟨hpfinite, -, hhigh, rfl⟩ := Scale.bounds_of_nearest? hpnearest
  obtain ⟨hrfinite, hlow, -, rfl⟩ := Scale.bounds_of_nearest? hrnearest
  constructor
  · have hfrequency := (frequency_antitone hp hr hle hpfinite).2
    obtain ⟨j, i, hji, hj, hi⟩ := Scale.exists_settle_le
      (fun z => lt_of_exact_le_of_lt hrfinite hpfinite hfrequency)
        q.scale.lowest q.scale.above
    exact ⟨i, j, Scale.isPlace_of_getElem? hi,
      Scale.isPlace_of_getElem? hj, hji⟩
  · intro x hpx hxr
    have hx := isPositive_of_between hp hr hpx hxr
    obtain ⟨hfinite, hbelow⟩ := frequency_antitone hp hx hpx hpfinite
    obtain ⟨-, habove⟩ := frequency_antitone hx hr hxr hfinite
    have htone :=
      Scale.isSome_nearest? hfinite (hlow.trans habove) (hbelow.trans hhigh)
    obtain ⟨v, hv⟩ := Option.isSome_iff_exists.mp htone
    exact Option.isSome_iff_exists.mpr ⟨v, tone?_eq_some_iff.mpr ⟨hx, hv⟩⟩

/-- The range of a whistle at a usual sample rate. -/
def studio : Quantizer :=
  ⟨44100, .whistle, by decide +kernel⟩

theorem tones_descend_studio :
    ∃ t u :
      Tone, ((48 : Float32) ≤ 50 ∧ studio.tone? 48 = some t ∧
        studio.tone? 50 = some u) ∧
      t.noteNumber = 82 ∧ u.noteNumber = 81 ∧
      (∃ i j : ℕ, studio.scale.IsPlace t i ∧ studio.scale.IsPlace u j ∧ j ≤ i) ∧
      ((48 : Float32) ≤ 49 ∧ (49 : Float32) ≤ 50) ∧
      (studio.tone? 49).isSome = true := by
  obtain ⟨t, ht, hnote⟩ := Option.map_eq_some_iff.mp
    (show (studio.tone? 48).map Tone.noteNumber = some 82 by decide +kernel)
  obtain ⟨u, hu, hlower⟩ := Option.map_eq_some_iff.mp
    (show (studio.tone? 50).map Tone.noteNumber = some 81 by decide +kernel)
  have hle : (48 : Float32) ≤ 50 := by decide +kernel
  have hbetween : (48 : Float32) ≤ 49 ∧ (49 : Float32) ≤ 50 := by decide +kernel
  obtain ⟨hplaces, hsome⟩ := tones_descend hle ht hu
  exact ⟨t, u, ⟨hle, ht, hu⟩, hnote, hlower, hplaces, hbetween,
    hsome 49 hbetween.1 hbetween.2⟩

end Quantizer

end PitchFollower
