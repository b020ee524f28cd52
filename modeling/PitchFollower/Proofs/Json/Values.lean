import PitchFollower.Json.Writer
import PitchFollower.Proofs.Json.Numerals
import PitchFollower.Proofs.Json.Text

/-!
# Values read back

A value is read from each of its texts, and its compact text is one of them.
The reader gets a budget of steps: one step for a value and one for each item or
member, so the length of the text is enough at every level of nesting.
-/

namespace PitchFollower.Json

/-! ## First characters -/

section Blanks

variable {bs : List Char}

theorem skipBlanks_cons {c : Char} (rest : List Char) (h : ¬ IsBlank c) :
    skipBlanks (c :: rest) = c :: rest := by
  rw [skipBlanks, List.dropWhile_cons_of_neg (by simpa using h)]

theorem skipBlanks_append (h : Blanks bs) (rest : List Char) :
    skipBlanks (bs ++ rest) = skipBlanks rest := by
  rw [skipBlanks,
    List.dropWhile_append_of_pos fun c hc => decide_eq_true (h c hc)]
  rfl

theorem blanks_nil : Blanks [] := by
  intro c hc
  cases hc

end Blanks

/-- The characters that a numeral may begin with, and nothing else. -/
def StartsNumeral (c : Char) : Prop :=
  c = '-' ∨ c.isDigit = true

theorem StartsNumeral.ne {c d : Char} (hc : StartsNumeral c)
    (hd : ¬ StartsNumeral d) : c ≠ d := by
  rintro rfl
  exact hd hc

instance (c : Char) : Decidable (StartsNumeral c) :=
  inferInstanceAs (Decidable (_ ∨ _))

theorem StartsNumeral.not_isBlank {c : Char} (hc : StartsNumeral c) :
    ¬ IsBlank c := by
  rintro (rfl | rfl | rfl | rfl) <;> exact absurd hc (by decide)

theorem NumeralText.eq_cons {n : Numeral} {cs : List Char}
    (h : NumeralText n cs) : ∃ c cs', cs = c :: cs' ∧ StartsNumeral c := by
  cases h with
  | strict hn =>
    obtain ⟨d, ds, hwhole, hd⟩ := hn.exists_cons
    rw [hwhole]
    cases n.negative with
    | true => exact ⟨_, _, rfl, .inl rfl⟩
    | false => exact ⟨_, _, rfl, .inr hd⟩

theorem QuotedText.eq_cons {text : String} {cs : List Char}
    (h : QuotedText text cs) : ∃ cs', cs = '"' :: cs' := by
  cases h with
  | quoted => exact ⟨_, rfl⟩

/-- The text of a value does not begin like the end of a list. -/
theorem ValueText.eq_cons {j : Json} {cs : List Char} (h : ValueText j cs) :
    ∃ c cs', cs = c :: cs' ∧ ¬ IsBlank c ∧ c ≠ ']' := by
  cases h with
  | number hn =>
    obtain ⟨c, cs, rfl, hc⟩ := hn.eq_cons
    exact ⟨c, cs, rfl, hc.not_isBlank, hc.ne (by decide)⟩
  | string htext =>
    obtain ⟨cs, rfl⟩ := htext.eq_cons
    exact ⟨_, _, rfl, by decide, by decide⟩
  | _ => exact ⟨_, _, rfl, by decide, by decide⟩

/-! ## What follows a value -/

/-- Neither a blank nor the end of an item goes on with a numeral. -/
theorem endsNumeral_append {bs : List Char} (hbs : Blanks bs) {c : Char}
    (rest : List Char) (h : c = ',' ∨ c = ']' ∨ c = '}') :
    EndsNumeral (bs ++ c :: rest) := by
  intro d hd
  rcases bs with _ | ⟨b, bs⟩
  · rw [List.nil_append, List.head?_cons, Option.mem_some_iff] at hd
    subst hd
    rcases h with rfl | rfl | rfl <;> decide
  · rw [List.cons_append, List.head?_cons, Option.mem_some_iff] at hd
    subst hd
    rcases hbs b List.mem_cons_self with rfl | rfl | rfl | rfl <;> decide

theorem endsNumeral_blanks {bs : List Char} (hbs : Blanks bs) :
    EndsNumeral bs := by
  intro d hd
  rcases hbs d (List.mem_of_mem_head? hd) with rfl | rfl | rfl | rfl <;> decide

/-! ## Reading with a budget -/

/-- With a budget of steps, all texts are read that are not longer. -/
structure ReadsBack (budget : ℕ) : Prop where
  value : ∀ {j : Json} {cs : List Char} (rest : List Char), ValueText j cs →
      cs.length ≤ budget →
    EndsNumeral rest → value? budget (cs ++ rest) = some (j, rest)
  items : ∀ {items : List Json} {cs : List Char}
      (rest : List Char), ItemsText items cs →
    cs.length ≤ budget → items? budget (cs ++ rest) = some (items, rest)
  members : ∀ {members : List (Option String × Json)} {cs : List Char}
      (rest : List Char),
    MembersText members cs → cs.length ≤ budget →
    members? budget (cs ++ rest) = some (members, rest)

/-- Blanks before a value cost nothing. -/
theorem value?_append {bs : List Char} (hbs : Blanks bs) (budget : ℕ)
    (cs : List Char) : value? budget (bs ++ cs) = value? budget cs := by
  cases budget with
  | zero => rfl
  | succ budget => rw [value?, value?, skipBlanks_append hbs]

section Step

variable {budget : ℕ} {cs rest : List Char}

theorem ItemsText.length_pos {items : List Json} (h : ItemsText items cs) :
    0 < cs.length := by
  cases h <;> simp

theorem MembersText.length_pos {members : List (Option String × Json)}
    (h : MembersText members cs) : 0 < cs.length := by
  cases h <;> simp

theorem readsBack_zero : ReadsBack 0 where
  value rest h hbudget _ := by
    obtain ⟨c, cs, rfl, -⟩ := h.eq_cons
    cases hbudget
  items rest h hbudget := absurd h.length_pos (Nat.not_lt_of_le hbudget)
  members rest h hbudget := absurd h.length_pos (Nat.not_lt_of_le hbudget)

/-- What stands behind a value and its blanks is left over. -/
theorem ReadsBack.item (h : ReadsBack budget) {j : Json} (hcs : ItemText j cs)
    (hbudget : cs.length ≤ budget) {c : Char} (hc : c = ',' ∨ c = ']' ∨ c = '}')
    (rest : List Char) :
    ∃ bs, Blanks bs ∧
      value? budget (cs ++ c :: rest) = some (j, bs ++ c :: rest) := by
  cases hcs with
  | @item j bs cs bs' hbs hvalue hbs' =>
    rw [List.length_append, List.length_append] at hbudget
    refine ⟨bs', hbs', ?_⟩
    rw [List.append_assoc, value?_append hbs, List.append_assoc]
    exact h.value _ hvalue (by omega) (endsNumeral_append hbs' rest hc)

theorem value?_number {n : Numeral} (hn : NumeralText n cs)
    (hrest : EndsNumeral rest) :
    value? (budget + 1) (cs ++ rest) = some (.number n, rest) := by
  have hread := numeral?_text hn hrest
  obtain ⟨c, cs, rfl, hc⟩ := hn.eq_cons
  rw [List.cons_append] at hread ⊢
  rw [value?, skipBlanks_cons _ hc.not_isBlank]
  simp only [if_neg (hc.ne (show ¬ StartsNumeral '"' by decide)),
    if_neg (hc.ne (show ¬ StartsNumeral '[' by decide)),
    if_neg (hc.ne (show ¬ StartsNumeral '{' by decide)),
    if_neg (hc.ne (show ¬ StartsNumeral 'n' by decide)),
    if_neg (hc.ne (show ¬ StartsNumeral 't' by decide)),
    if_neg (hc.ne (show ¬ StartsNumeral 'f' by decide)), hread, Option.map_some]

theorem value?_string {text : String} (htext : QuotedText text cs)
    (rest : List Char) :
    value? (budget + 1) (cs ++ rest) = some (.string (some text), rest) := by
  obtain ⟨cs, points, rfl, hquoted, hpoints⟩ := htext.exists_points
  rw [List.cons_append, value?, skipBlanks_cons _ (by decide)]
  simp only [if_true, hquoted, Option.map_some, hpoints]

/-- Brackets around blanks hold nothing. -/
theorem value?_emptyArray {bs : List Char} (hbs : Blanks bs)
    (rest : List Char) :
    value? (budget + 1) ('[' :: (bs ++ ']' :: rest)) =
      some (.array [], rest) := by
  have hopen : '[' ≠ '"' := by decide
  rw [value?, skipBlanks_cons _ (by decide)]
  simp only [if_neg hopen, if_true, skipBlanks_append hbs, skipBlanks_cons _
    (show ¬ IsBlank ']' by decide)]

theorem value?_emptyObject {bs : List Char} (hbs : Blanks bs)
    (rest : List Char) :
    value? (budget + 1) ('{' :: (bs ++ '}' :: rest)) =
      some (.object [], rest) := by
  have hquote : '{' ≠ '"' := by decide
  have hbracket : '{' ≠ '[' := by decide
  rw [value?, skipBlanks_cons _ (by decide)]
  simp only [if_neg hquote, if_neg hbracket, if_true, skipBlanks_append hbs,
    skipBlanks_cons _
    (show ¬ IsBlank '}' by decide)]

/-- Behind an opening bracket there is a first item unless there is a closing
one. -/
theorem value?_array {items : List Json} (hcs : ItemsText items cs)
    (rest : List Char) :
    value? (budget + 1) ('[' :: (cs ++ rest)) =
      (items? budget (cs ++ rest)).map fun (items, rest) =>
        (.array items, rest) := by
  have hopen : '[' ≠ '"' := by decide
  have hfirst : ∃ c cs', skipBlanks (cs ++ rest) = c :: cs' ∧ c ≠ ']' := by
    have hitem {j : Json} {cs : List Char} (h : ItemText j cs)
      (rest : List Char) :
        ∃ c cs', skipBlanks (cs ++ rest) = c :: cs' ∧ c ≠ ']' := by
      cases h with
      | item hbs hvalue _ =>
        obtain ⟨c, cs, rfl, hblank, hne⟩ := hvalue.eq_cons
        rw [List.append_assoc, skipBlanks_append hbs]
        exact ⟨c, _, skipBlanks_cons _ hblank, hne⟩
    cases hcs with
    | last h =>
      rw [List.append_assoc]
      exact hitem h _
    | more h _ =>
      rw [List.append_assoc]
      exact hitem h _
  obtain ⟨c, cs', hskip, hne⟩ := hfirst
  rw [value?, skipBlanks_cons _ (by decide)]
  simp only [if_neg hopen, if_true, hskip]
  split
  · rename_i heq
    cases heq
    exact absurd rfl hne
  · rfl

theorem MemberText.skipBlanks_eq {name : String} {j : Json}
    (h : MemberText name j cs) (rest : List Char) :
    ∃ cs', skipBlanks (cs ++ rest) = '"' :: cs' := by
  cases h with
  | member hbs hname _ _ =>
    obtain ⟨cs, rfl⟩ := hname.eq_cons
    rw [List.append_assoc, skipBlanks_append hbs]
    exact ⟨_, skipBlanks_cons _ (by decide)⟩

/-- Behind an opening brace there is a first name unless there is a closing
one. -/
theorem value?_object {members : List (Option String × Json)}
    (hcs : MembersText members cs) (rest : List Char) :
    value? (budget + 1) ('{' :: (cs ++ rest)) =
      (members? budget (cs ++ rest)).map fun (members, rest) =>
        (.object members, rest) := by
  have hquote : '{' ≠ '"' := by decide
  have hbracket : '{' ≠ '[' := by decide
  have hfirst : ∃ cs', skipBlanks (cs ++ rest) = '"' :: cs' := by
    cases hcs with
    | last h =>
      rw [List.append_assoc]
      exact h.skipBlanks_eq _
    | more h _ =>
      rw [List.append_assoc]
      exact h.skipBlanks_eq _
  obtain ⟨cs', hskip⟩ := hfirst
  rw [value?, skipBlanks_cons _ (by decide)]
  simp only [if_neg hquote, if_neg hbracket, if_true, hskip]
  rfl

theorem ReadsBack.value_succ (h : ReadsBack budget) {j : Json}
    (hcs : ValueText j cs) (hbudget : cs.length ≤ budget + 1)
    (hrest : EndsNumeral rest) :
    value? (budget + 1) (cs ++ rest) = some (j, rest) := by
  cases hcs with
  | null => rfl
  | true => rfl
  | false => rfl
  | number hn => exact value?_number hn hrest
  | string htext => exact value?_string htext rest
  | emptyArray hbs =>
    rw [List.cons_append, List.append_assoc]
    exact value?_emptyArray hbs rest
  | array hitems =>
    rw [List.cons_append, value?_array hitems,
      h.items rest hitems (Nat.le_of_succ_le_succ hbudget)]
    rfl
  | emptyObject hbs =>
    rw [List.cons_append, List.append_assoc]
    exact value?_emptyObject hbs rest
  | object hmembers =>
    rw [List.cons_append, value?_object hmembers,
      h.members rest hmembers (Nat.le_of_succ_le_succ hbudget)]
    rfl

theorem ReadsBack.items_succ (h : ReadsBack budget) {items : List Json}
    (hcs : ItemsText items cs) (hbudget : cs.length ≤ budget + 1) :
    items? (budget + 1) (cs ++ rest) = some (items, rest) := by
  cases hcs with
  | @last j cs hitem =>
    rw [List.length_append, List.length_singleton] at hbudget
    obtain ⟨bs, hbs, hvalue⟩ := h.item hitem (by omega) (.inr (.inl rfl)) rest
    rw [List.append_assoc, List.singleton_append, items?, hvalue]
    simp only [skipBlanks_append hbs,
      skipBlanks_cons _ (show ¬ IsBlank ']' by decide)]
  | @more j items cs cs' hitem hmore =>
    rw [List.length_append, List.length_cons] at hbudget
    obtain ⟨bs, hbs, hvalue⟩ := h.item hitem (by omega) (.inl rfl) (cs' ++ rest)
    rw [List.append_assoc, List.cons_append, items?, hvalue]
    simp only [skipBlanks_append hbs,
      skipBlanks_cons _ (show ¬ IsBlank ',' by decide),
      h.items rest hmore (by omega), Option.map_some]

/-- A member is read in front of the end of its object or of more members. -/
theorem ReadsBack.member (h : ReadsBack budget) {name : String} {j : Json}
    {members : List (Option String × Json)} {rest' : List Char} {c : Char}
    (hcs : MemberText name j cs) (hbudget : cs.length ≤ budget)
    (hnext : c = '}' ∧ members = [] ∧ rest' = rest ∨
      c = ',' ∧ members? budget rest = some (members, rest')) :
    members? (budget + 1) (cs ++ c :: rest) =
      some ((some name, j) :: members, rest') := by
  have hc : c = ',' ∨ c = ']' ∨ c = '}' :=
    hnext.elim (fun hlast => .inr (.inr hlast.1)) (fun hmore => .inl hmore.1)
  cases hcs with
  | member hbs hname hbs' hitem =>
    obtain ⟨name', points, rfl, hquoted, hpoints⟩ := hname.exists_points
    simp only [List.length_append, List.length_cons] at hbudget
    obtain ⟨bs'', hbs'', hvalue⟩ := h.item hitem (by omega) hc rest
    simp only [List.append_assoc, List.cons_append]
    rw [members?, skipBlanks_append hbs, skipBlanks_cons _ (by decide)]
    simp only [hquoted, skipBlanks_append hbs',
      skipBlanks_cons _ (show ¬ IsBlank ':' by decide), hvalue, hpoints,
      skipBlanks_append hbs'']
    rcases hnext with ⟨rfl, rfl, rfl⟩ | ⟨rfl, hmore⟩
    · simp only [skipBlanks_cons _ (show ¬ IsBlank '}' by decide)]
    · simp only [skipBlanks_cons _ (show ¬ IsBlank ',' by decide), hmore,
        Option.map_some]

theorem ReadsBack.members_succ (h : ReadsBack budget)
    {members : List (Option String × Json)} (hcs : MembersText members cs)
    (hbudget : cs.length ≤ budget + 1) :
    members? (budget + 1) (cs ++ rest) = some (members, rest) := by
  cases hcs with
  | @last name j cs hmember =>
    rw [List.length_append, List.length_singleton] at hbudget
    rw [List.append_assoc, List.singleton_append]
    exact h.member hmember (by omega) (.inl ⟨rfl, rfl, rfl⟩)
  | @more name j members cs cs' hmember hmore =>
    rw [List.length_append, List.length_cons] at hbudget
    rw [List.append_assoc, List.cons_append]
    exact h.member hmember (by omega) (.inr ⟨rfl,
      h.members rest hmore (by omega)⟩)

end Step

/-- Every budget reads back the texts that it is enough for. -/
theorem readsBack (budget : ℕ) : ReadsBack budget := by
  induction budget with
  | zero => exact readsBack_zero
  | succ budget ih =>
    exact ⟨fun _ => ih.value_succ, fun _ => ih.items_succ,
      fun _ => ih.members_succ⟩

/-- A value is read from each of its texts. -/
theorem read?_of_isText {j : Json} {text : String} (h : IsText j text) :
    read? text = some j := by
  have hitem : ItemText j text.toList := h
  have hbudget : text.toList.length ≤ budgetFor text.toList := by
    unfold budgetFor
    omega
  unfold read?
  generalize budgetFor text.toList = budget at hbudget ⊢
  generalize text.toList = cs at hitem hbudget ⊢
  cases hitem with
  | @item j bs cs bs' hbs hvalue hbs' =>
    rw [List.length_append, List.length_append] at hbudget
    have hskip := skipBlanks_append hbs' []
    rw [List.append_nil] at hskip
    rw [value?_append hbs,
      (readsBack budget).value bs' hvalue (by omega) (endsNumeral_blanks hbs')]
    dsimp only
    rw [hskip]
    rfl

/-! ## Compact text -/

/-- A value that has a text: its numerals are strict, and its strings and names
are text. -/
inductive IsWritable : Json → Prop
  | null : IsWritable .null
  | bool (value : Bool) : IsWritable (.bool value)
  | number {n : Numeral} (h : IsStrict n) : IsWritable (.number n)
  | string (text : String) : IsWritable (.string (some text))
  | array {items : List Json} (h : ∀ item ∈ items, IsWritable item) :
      IsWritable (.array items)
  | object {members : List (Option String × Json)}
      (hnames : ∀ m ∈ members, ∃ name, m.1 = some name)
      (hvalues : ∀ m ∈ members, IsWritable m.2) : IsWritable (.object members)

theorem isWritable_ofMembers {members : List (String × Json)}
    (h : ∀ m ∈ members, IsWritable m.2) : IsWritable (.ofMembers members) := by
  refine .object ?_ ?_
  · intro m hm
    obtain ⟨m, -, rfl⟩ := List.mem_map.mp hm
    exact ⟨m.1, rfl⟩
  · intro m hm
    obtain ⟨m, hmem, rfl⟩ := List.mem_map.mp hm
    exact h m hmem

theorem ValueText.itemText {j : Json} {cs : List Char} (h : ValueText j cs) :
    ItemText j cs := by
  have hitem := ItemText.item blanks_nil h blanks_nil
  rwa [List.nil_append, List.append_nil] at hitem

theorem itemsText_write (item : Json) (items : List Json)
    (h : ∀ i ∈ item :: items, ValueText i (write i)) :
    ItemsText (item :: items) (write item ++ (writeItems items ++ [']'])) := by
  have hitem := (h item List.mem_cons_self).itemText
  induction items generalizing item with
  | nil => exact .last hitem
  | cons next items ih =>
    have hrest (i : Json) (hi : i ∈ next :: items) :=
      h i (List.mem_cons_of_mem _ hi)
    rw [writeItems, List.cons_append, List.append_assoc]
    exact .more hitem (ih next hrest (hrest next List.mem_cons_self).itemText)

theorem memberText_write (name : String) {j : Json}
    (h : ValueText j (write j)) :
    MemberText name j (quoteText (some name) ++ ':' :: write j) := by
  have hmember :=
    MemberText.member blanks_nil (quotedText_quote name) blanks_nil h.itemText
  rwa [List.nil_append, List.nil_append] at hmember

theorem membersText_write (name : String) (j : Json)
    (members : List (Option String × Json))
    (hnames : ∀ m ∈ members, ∃ name, m.1 = some name)
    (h : ∀ m ∈ (some name, j) :: members, ValueText m.2 (write m.2)) :
    MembersText ((some name, j) :: members)
      (quoteText (some name) ++ ':' ::
        (write j ++ (writeMembers members ++ ['}']))) := by
  have hmember := memberText_write name (h (some name, j) List.mem_cons_self)
  induction members generalizing name j with
  | nil =>
    have hlast := MembersText.last hmember
    rwa [List.append_assoc] at hlast
  | cons next members ih =>
    obtain ⟨next', j'⟩ := next
    obtain ⟨next, rfl⟩ := hnames _ List.mem_cons_self
    have hrest (m : Option String × Json)
        (hm : m ∈ (some next, j') :: members) :=
      h m (List.mem_cons_of_mem _ hm)
    have hmore := MembersText.more hmember
      (ih next j' (fun m hm => hnames m (List.mem_cons_of_mem _ hm)) hrest
        (memberText_write next (hrest (some next, j') List.mem_cons_self)))
    rw [writeMembers]
    simpa only [List.cons_append, List.append_assoc] using hmore

/-- The compact text of a value is one of its texts. -/
theorem IsWritable.valueText {j : Json} (hj : IsWritable j) :
    ValueText j (write j) := by
  induction hj with
  | null => exact .null
  | bool value =>
    cases value with
    | true => exact .true
    | false => exact .false
  | number hn => exact .number hn.numeralText
  | string text => exact .string (quotedText_quote text)
  | @array items _ ih =>
    cases items with
    | nil => exact .emptyArray blanks_nil
    | cons item items => exact .array (itemsText_write item items ih)
  | @object members hnames _ ih =>
    rcases members with _ | ⟨⟨name, j⟩, members⟩
    · exact .emptyObject blanks_nil
    · obtain ⟨name, rfl⟩ := hnames _ List.mem_cons_self
      exact .object (membersText_write name j members
        (fun m hm => hnames m (List.mem_cons_of_mem _ hm)) ih)

theorem IsWritable.isText {j : Json} (hj : IsWritable j) :
    IsText j (String.ofList (write j)) := by
  rw [IsText, String.toList_ofList]
  exact hj.valueText.itemText

/-- A value is read from its compact text. -/
theorem read?_write {j : Json} (hj : IsWritable j) :
    read? (String.ofList (write j)) = some j :=
  read?_of_isText hj.isText

end PitchFollower.Json
