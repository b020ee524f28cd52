import Mathlib.Tactic.SplitIfs
import PitchFollower.Proofs.Json.Grammar

/-!
# Quoted text reads back

The reader of quoted text finds code points and units, and then makes characters
of them.  However a character is written, both steps find it in front of what
the rest gives.  The writer escapes each character in one of the ways that the
grammar has.
-/

namespace PitchFollower.Json

/-! ## Code units -/

theorem hexValue?_of_hexText {n : ℕ} {c : Char} (h : HexText n c) :
    hexValue? c = some n := by
  have hdigits : ∀ n < 16, hexValue? (hexDigit n) = some n ∧
      hexValue? (hexDigit n).toUpper = some n := by decide
  cases h with
  | lower hn => exact (hdigits n hn).1
  | upper hn => exact (hdigits n hn).2

theorem quoted?_unit {n : ℕ} {cs : List Char} (h : UnitText n cs)
    (rest : List Char) :
    quoted? ('\\' :: 'u' :: (cs ++ rest)) =
      (quoted? rest).map fun (points, rest) => (n :: points, rest) := by
  cases h with
  | @digits a b c d a' b' c' d' ha hb hc hd =>
    have hunit : codeUnit? a' b' c' d' =
        some (16 * (16 * (16 * a + b) + c) + d) := by
      rw [codeUnit?, hexValue?_of_hexText ha, hexValue?_of_hexText hb,
        hexValue?_of_hexText hc, hexValue?_of_hexText hd]
      rfl
    simp only [List.cons_append, List.nil_append]
    rw [quoted?, hunit]

/-! ## Characters -/

/-- No character is one unit of a pair. -/
theorem not_unit (c : Char) : ¬ IsLowUnit c.toNat ∧ ¬ IsHighUnit c.toNat := by
  have hvalid : c.toNat < 0xd800 ∨ 0xdfff < c.toNat ∧ c.toNat < 0x110000 :=
    c.valid
  unfold IsLowUnit IsHighUnit
  omega

theorem characters?_cons (c : Char) (points : List ℕ) :
    characters? (c.toNat :: points) = (characters? points).map (c :: ·) := by
  obtain ⟨hlow, hhigh⟩ := not_unit c
  rw [characters?.eq_def]
  dsimp only
  rw [if_neg hlow, if_neg hhigh, Char.ofNat_toNat]

/-- The units of a pair make one character. -/
theorem characters?_pair {c : Char} {high low : ℕ} (hhigh : high < 0x400)
    (hlow : low < 0x400) (hc : c.toNat = 0x10000 + 0x400 * high + low)
    (points : List ℕ) :
    characters? ((0xd800 + high) :: (0xdc00 + low) :: points) =
      (characters? points).map (c :: ·) := by
  have hfirst : ¬ IsLowUnit (0xd800 + high) ∧ IsHighUnit (0xd800 + high) := by
    unfold IsLowUnit IsHighUnit
    omega
  have hsecond : IsLowUnit (0xdc00 + low) := by
    unfold IsLowUnit
    omega
  have hpair : ofPair (0xd800 + high) (0xdc00 + low) = c := by
    rw [ofPair, Nat.add_sub_cancel_left, Nat.add_sub_cancel_left, ← hc,
      Char.ofNat_toNat]
  rw [characters?.eq_def]
  dsimp only
  rw [if_neg hfirst.1, if_pos hfirst.2, if_pos hsecond, hpair]

/-- A character that needs no escape stands for itself. -/
theorem quoted?_plain {c : Char} (hmark : ¬ (c = '"' ∨ c = '\\'))
    (hcontrol : ¬ c.toNat < 0x20) (rest : List Char) :
    quoted? (c :: rest) = (quoted? rest).map fun (points, rest) =>
      (c.toNat :: points, rest) := by
  rw [quoted?.eq_def]
  split <;> rename_i heq <;> cases heq
  · exact absurd (.inr rfl) hmark
  · exact absurd (.inr rfl) hmark
  · exact absurd (.inl rfl) hmark
  · exact if_neg (not_or.mpr ⟨fun h => hmark (.inr h), hcontrol⟩)

/-- A letter behind a backslash stands for the character in its row. -/
theorem quoted?_letter {l c : Char} (h : (l, c) ∈ letters) (rest : List Char) :
    quoted? ('\\' :: l :: rest) =
      (quoted? rest).map fun (points, rest) => (c.toNat :: points, rest) := by
  have hrow : ∀ row ∈ letters, escaped? row.1 = some row.2 ∧
      row.1 ≠ 'u' := by decide
  obtain ⟨hescaped, hne⟩ := hrow _ h
  rw [quoted?.eq_def]
  split <;> rename_i heq <;> cases heq
  · exact absurd rfl hne
  · rw [hescaped]
  · rename_i hother
    exact absurd rfl (hother _ _ rfl)

/-- A character is found in front of what comes behind it, both among the points
and among the characters. -/
theorem CharText.exists_points {c : Char} {cs : List Char} (h : CharText c cs) :
    ∃ points, (∀ rest, quoted? (cs ++ rest) =
        (quoted? rest).map fun (points', rest) => (points ++ points', rest)) ∧
      ∀ points',
      characters? (points ++ points') = (characters? points').map (c :: ·) := by
  cases h with
  | plain hmark hcontrol =>
    exact ⟨[c.toNat], quoted?_plain hmark hcontrol, characters?_cons c⟩
  | letter hl => exact ⟨[c.toNat], quoted?_letter hl, characters?_cons c⟩
  | unit hunit => exact ⟨[c.toNat], quoted?_unit hunit, characters?_cons c⟩
  | @pair high low cs cs' hhigh hlow hc hcs hcs' =>
    refine ⟨[0xd800 + high, 0xdc00 + low], fun rest => ?_,
      characters?_pair hhigh hlow hc⟩
    simp only [List.cons_append, List.append_assoc]
    rw [quoted?_unit hcs, quoted?_unit hcs', Option.map_map]
    rfl

/-! ## Text -/

theorem CharsText.exists_points {text cs : List Char} (h : CharsText text cs) :
    ∃ points, (∀ rest, quoted? (cs ++ rest) = some (points, rest)) ∧
      characters? points = some text := by
  induction h with
  | close => exact ⟨[], fun rest => rfl, rfl⟩
  | cons hc _ ih =>
    obtain ⟨points, hquoted, hcharacters⟩ := hc.exists_points
    obtain ⟨points', hquoted', hcharacters'⟩ := ih
    refine ⟨points ++ points', fun rest => ?_, ?_⟩
    · rw [List.append_assoc, hquoted, hquoted']
      rfl
    · rw [hcharacters, hcharacters']
      rfl

/-- Text in quotation marks is read behind the opening mark. -/
theorem QuotedText.exists_points {text : String} {cs : List Char}
    (h : QuotedText text cs) :
    ∃ cs' points, cs = '"' :: cs' ∧
      (∀ rest, quoted? (cs' ++ rest) = some (points, rest)) ∧
      text? points = some text := by
  cases h with
  | @quoted cs' hcs' =>
    obtain ⟨points, hquoted, hcharacters⟩ := hcs'.exists_points
    refine ⟨cs', points, rfl, hquoted, ?_⟩
    rw [text?, hcharacters, Option.map_some, String.ofList_toList]

/-! ## Quotation -/

/-- The escape of a control character is its code unit. -/
theorem unitText_of_lt {n : ℕ} (h : n < 256) :
    UnitText n ['0', '0', hexDigit (n / 16), hexDigit (n % 16)] := by
  have hzero : HexText 0 '0' := .lower (by decide)
  have hunit := UnitText.digits hzero hzero (.lower (show n / 16 < 16 by omega))
    (.lower (show n % 16 < 16 by omega))
  have hsplit : 16 * (16 * (16 * 0 + 0) + n / 16) + n % 16 = n := by omega
  rwa [hsplit] at hunit

/-- The writer escapes a character in one of the ways there are. -/
theorem charText_escape (c : Char) : CharText c (escape c) := by
  unfold escape
  split_ifs with hmark hbackspace hfeed hline hreturn htab hcontrol
  · rcases hmark with rfl | rfl
    · exact .letter (by decide)
    · exact .letter (by decide)
  · exact .letter (hbackspace ▸ by decide)
  · exact .letter (hfeed ▸ by decide)
  · exact .letter (hline ▸ by decide)
  · exact .letter (hreturn ▸ by decide)
  · exact .letter (htab ▸ by decide)
  · exact .unit (unitText_of_lt (by omega))
  · exact .plain hmark hcontrol

theorem charsText_flatMap (cs : List Char) :
    CharsText cs (cs.flatMap escape ++ ['"']) := by
  induction cs with
  | nil => exact .close
  | cons c cs ih =>
    rw [List.flatMap_cons, List.append_assoc]
    exact .cons (charText_escape c) ih

theorem quotedText_quote (text : String) :
    QuotedText text (quote text.toList) :=
  .quoted (charsText_flatMap text.toList)

end PitchFollower.Json
