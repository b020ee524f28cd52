import PitchFollower.Proofs.Decimal.Digits
import PitchFollower.Proofs.Json.Grammar

/-!
# Numerals read back

A numeral is read from its characters if what stands behind it cannot be a part
of it.
-/

namespace PitchFollower.Json

/-- What may stand behind digits that are to be read to their end. -/
def NoDigit (rest : List Char) : Prop :=
  ∀ c ∈ rest.head?, c.isDigit = false

/-- What may stand behind a numeral. -/
def EndsNumeral (rest : List Char) : Prop :=
  ∀ c ∈ rest.head?, c.isDigit = false ∧ c ≠ '.' ∧ c ≠ 'e' ∧ c ≠ 'E'

section Rest

variable {c : Char} {rest : List Char}

theorem EndsNumeral.noDigit (h : EndsNumeral rest) : NoDigit rest := by
  intro c hc
  exact (h c hc).1

theorem noDigit_cons (h : c.isDigit = false) : NoDigit (c :: rest) := by
  intro d hd
  rw [List.head?_cons, Option.mem_some_iff] at hd
  rwa [← hd]

end Rest

/-! ## Parts of a numeral -/

section Parts

variable {ds rest : List Char}

theorem spanDigits_append (hds : ∀ c ∈ ds, c.isDigit = true)
    (hrest : NoDigit rest) : Numeral.spanDigits (ds ++ rest) = (ds, rest) := by
  have htake : rest.takeWhile Char.isDigit = [] := by
    cases rest with
    | nil => rfl
    | cons c rest => rw [List.takeWhile_cons_of_neg (by simp [hrest c rfl])]
  have hdrop : rest.dropWhile Char.isDigit = rest := by
    cases rest with
    | nil => rfl
    | cons c rest => rw [List.dropWhile_cons_of_neg (by simp [hrest c rfl])]
  rw [Numeral.spanDigits, List.span_eq_takeWhile_dropWhile,
    List.takeWhile_append_of_pos hds, List.dropWhile_append_of_pos hds, htake,
    hdrop, List.append_nil]

theorem wholeDigits?_append (hds : ∀ c ∈ ds, c.isDigit = true)
    (hlead : ds = ['0'] ∨ ∃ d ds', ds = d :: ds' ∧ d ≠ '0')
    (hrest : NoDigit rest) : wholeDigits? (ds ++ rest) = some (ds, rest) := by
  rcases hlead with rfl | ⟨d, ds', rfl, hd⟩
  · rfl
  · have hspan := spanDigits_append hds hrest
    rw [List.cons_append] at hspan ⊢
    rw [wholeDigits?.eq_def]
    split
    · rename_i heq
      cases heq
      exact absurd rfl hd
    · rw [hspan]

theorem fractionDigits?_point (hne : ds ≠ []) (hds : ∀ c ∈ ds, c.isDigit = true)
    (hrest : NoDigit rest) :
    fractionDigits? ('.' :: (ds ++ rest)) = some (ds, rest) := by
  have hspan := spanDigits_append hds hrest
  obtain ⟨d, ds', rfl⟩ := List.exists_cons_of_ne_nil hne
  rw [fractionDigits?, hspan]

theorem fractionDigits?_none (hrest : '.' ∉ rest.head?) :
    fractionDigits? rest = some ([], rest) := by
  rw [fractionDigits?.eq_def]
  split
  · exact absurd rfl hrest
  · rfl

/-- Digits behind a sign, or without one. -/
theorem exponentValue?_digits {cs : List Char} (negative : Bool) (hne : ds ≠ [])
    (hds : ∀ c ∈ ds, c.isDigit = true) (hrest : NoDigit rest)
    (hsign : Numeral.takeSign cs = (negative, ds ++ rest)) :
    Numeral.exponentValue? cs =
      some (if negative then -(Decimal.ofDigits ds : ℤ)
        else Decimal.ofDigits ds, rest) := by
  have hspan := spanDigits_append hds hrest
  obtain ⟨d, ds', rfl⟩ := List.exists_cons_of_ne_nil hne
  rw [Numeral.exponentValue?, hsign]
  simp only [hspan]

/-- Digits have no sign. -/
theorem takeSign_digits (hne : ds ≠ []) (hds : ∀ c ∈ ds, c.isDigit = true) :
    Numeral.takeSign (ds ++ rest) = (false, ds ++ rest) := by
  obtain ⟨d, ds', rfl⟩ := List.exists_cons_of_ne_nil hne
  have hdigit := hds d List.mem_cons_self
  rw [List.cons_append, Numeral.takeSign.eq_def]
  split
  · rename_i heq
    cases heq
    cases hdigit
  · rename_i heq
    cases heq
    cases hdigit
  · rfl

theorem exponent?_mark {mark : Char} {cs : List Char} {e : ℤ}
    (hmark : mark = 'e' ∨ mark = 'E')
    (hvalue : Numeral.exponentValue? cs = some (e, rest)) :
    exponent? (mark :: cs) = some (some e, rest) := by
  rcases hmark with rfl | rfl
  · rw [exponent?, hvalue, Option.map_some]
  · rw [exponent?, hvalue, Option.map_some]

theorem exponent?_none (h : 'e' ∉ rest.head?) (h' : 'E' ∉ rest.head?) :
    exponent? rest = some (none, rest) := by
  rw [exponent?.eq_def]
  split
  · exact absurd rfl h
  · exact absurd rfl h'
  · rfl

theorem exponent?_text {e : Option ℤ} {cs : List Char} (h : ExponentText e cs)
    (hrest : EndsNumeral rest) : exponent? (cs ++ rest) = some (e, rest) := by
  cases h with
  | none =>
    exact exponent?_none (fun h => (hrest _ h).2.2.1 rfl) (fun h =>
      (hrest _ h).2.2.2 rfl)
  | plus hmark hsign hne hds =>
    refine exponent?_mark hmark
      (exponentValue?_digits false hne hds hrest.noDigit ?_)
    rcases hsign with rfl | rfl
    · exact takeSign_digits hne hds
    · rfl
  | minus hmark hne hds =>
    exact exponent?_mark hmark
      (exponentValue?_digits true hne hds hrest.noDigit rfl)

end Parts

/-! ## Whole numerals -/

section Whole

variable {n : Numeral} {cs rest : List Char} {e : Option ℤ}

/-- An exponent does not go on with the digits or the point before it. -/
theorem ends_exponentText (h : ExponentText e cs) (hrest : EndsNumeral rest) :
    NoDigit (cs ++ rest) ∧ '.' ∉ (cs ++ rest).head? := by
  have hmarked {mark : Char} (hmark : mark = 'e' ∨ mark = 'E')
      (cs : List Char) :
      NoDigit (mark :: cs) ∧ '.' ∉ (mark :: cs).head? := by
    rw [List.head?_cons, Option.mem_some_iff]
    rcases hmark with rfl | rfl
    · exact ⟨noDigit_cons rfl, by decide⟩
    · exact ⟨noDigit_cons rfl, by decide⟩
  cases h with
  | none => exact ⟨hrest.noDigit, fun h => (hrest _ h).2.1 rfl⟩
  | plus hmark => exact hmarked hmark _
  | minus hmark => exact hmarked hmark _

theorem noDigit_fractionChars (ds : List Char) (hrest : NoDigit rest) :
    NoDigit (fractionChars ds ++ rest) := by
  unfold fractionChars
  split_ifs
  · exact hrest
  · exact noDigit_cons rfl

theorem fractionDigits?_chars {ds : List Char}
    (hds : ∀ c ∈ ds, c.isDigit = true) (hrest : NoDigit rest)
    (hpoint : '.' ∉ rest.head?) :
    fractionDigits? (fractionChars ds ++ rest) = some (ds, rest) := by
  unfold fractionChars
  split_ifs with hnone
  · rw [List.nil_append, fractionDigits?_none hpoint, hnone]
  · exact fractionDigits?_point hnone hds hrest

theorem takeMinus_append (negative : Bool) {cs : List Char}
    (h : '-' ∉ cs.head?) :
    takeMinus ((if negative then ['-'] else []) ++ cs) = (negative, cs) := by
  cases negative with
  | true => rfl
  | false =>
    rw [if_neg Bool.false_ne_true, List.nil_append, takeMinus.eq_def]
    split
    · exact absurd rfl h
    · rfl

theorem IsStrict.exists_cons (hn : IsStrict n) :
    ∃ d ds, n.whole = d :: ds ∧ d.isDigit = true := by
  have hdigits := hn.whole
  rcases hn.lead with hzero | ⟨d, ds, hwhole, -⟩
  · exact ⟨'0', [], hzero, rfl⟩
  · exact ⟨d, ds, hwhole, hdigits d (hwhole ▸ List.mem_cons_self)⟩

/-- A numeral is read from its characters. -/
theorem numeral?_text (h : NumeralText n cs) (hrest : EndsNumeral rest) :
    numeral? (cs ++ rest) = some (n, rest) := by
  cases h with
  | @strict cs hn hcs =>
    have hexponent := exponent?_text hcs hrest
    obtain ⟨hbehind, hpoint⟩ := ends_exponentText hcs hrest
    have hfraction := fractionDigits?_chars hn.fraction hbehind hpoint
    have hwhole :=
      wholeDigits?_append hn.whole hn.lead
        (noDigit_fractionChars n.fraction hbehind)
    have hminus : '-' ∉
        (n.whole ++ (fractionChars n.fraction ++ (cs ++ rest))).head? := by
      obtain ⟨d, ds, hcons, hd⟩ := hn.exists_cons
      rw [hcons, List.cons_append, List.head?_cons, Option.mem_some_iff]
      rintro rfl
      cases hd
    simp only [List.append_assoc]
    rw [numeral?, takeMinus_append n.negative hminus]
    simp only [hwhole, hfraction, hexponent, Option.bind_eq_bind,
      Option.bind_some]
    rfl

/-! ## Written numerals -/

theorem exponentText_exponentText (e : ℤ) :
    ExponentText (some e) (Numeral.exponentText e) := by
  have hne := Decimal.digits_ne_nil e.natAbs
  have hds (c : Char) (hc : c ∈ Decimal.digits e.natAbs) : c.isDigit = true :=
    Decimal.isDigit_of_mem_digits hc
  rw [Numeral.exponentText]
  by_cases hsign : e < 0
  · have hminus := ExponentText.minus (.inl rfl) hne hds
    have hneg : -(e.natAbs : ℤ) = e := by omega
    rw [Decimal.ofDigits_digits, hneg] at hminus
    rwa [if_pos hsign]
  · have hplus := ExponentText.plus (.inl rfl) (.inr rfl) hne hds
    have hpos : (e.natAbs : ℤ) = e := by omega
    rw [Decimal.ofDigits_digits, hpos] at hplus
    rwa [if_neg hsign]

/-- The text of a strict numeral is one of its texts. -/
theorem IsStrict.numeralText (hn : IsStrict n) : NumeralText n n.text := by
  have htext (cs : List Char) (hcs : ExponentText n.exponent cs) :
      NumeralText n ((if n.negative then ['-'] else []) ++ n.whole ++
        (if n.fraction = [] then [] else '.' :: n.fraction) ++ cs) := by
    rw [List.append_assoc, List.append_assoc]
    exact .strict hn hcs
  rw [Numeral.text]
  cases hexponent : n.exponent with
  | none =>
    apply htext
    rw [hexponent]
    exact .none
  | some e =>
    apply htext
    rw [hexponent]
    exact exponentText_exponentText e

end Whole

end PitchFollower.Json
