import Mathlib.Data.Int.Notation
import Mathlib.Data.Nat.Notation
import PitchFollower.Json.Reader

/-!
# The grammar of JSON text

Which characters write a value, apart from any reader or writer.  A value has
many texts: there may be blanks between its parts, each character of a string
can be written in several ways, and so can an exponent.
-/

namespace PitchFollower.Json

/-! ## Strings -/

/-- A hexadecimal digit in lower or upper case. -/
inductive HexText : ℕ → Char → Prop
  | lower {n : ℕ} (h : n < 16) : HexText n (hexDigit n)
  | upper {n : ℕ} (h : n < 16) : HexText n (hexDigit n).toUpper

/-- Four hexadecimal digits. -/
inductive UnitText : ℕ → List Char → Prop
  | digits {a b c d : ℕ} {a' b' c' d' : Char} (ha : HexText a a')
      (hb : HexText b b')
      (hc : HexText c c') (hd : HexText d d') :
      UnitText (16 * (16 * (16 * a + b) + c) + d) [a', b', c', d']

/-- The letters that may stand behind a backslash, and the characters they
write. -/
def letters : List (Char × Char) :=
  [('"', '"'), ('\\', '\\'), ('/', '/'), ('b', '\x08'), ('f', '\x0c'),
    ('n', '\n'), ('r', '\r'), ('t', '\t')]

/-- A character between quotation marks: itself, a letter behind a backslash, or
one or two code units. -/
inductive CharText (c : Char) : List Char → Prop
  | plain (hmark : ¬ (c = '"' ∨ c = '\\')) (hcontrol : ¬ c.toNat < 0x20) :
      CharText c [c]
  | letter {l : Char} (h : (l, c) ∈ letters) : CharText c ['\\', l]
  | unit {cs : List Char} (h : UnitText c.toNat cs) :
      CharText c ('\\' :: 'u' :: cs)
  | pair {high low : ℕ} {cs cs' : List Char} (hhigh : high < 0x400)
      (hlow : low < 0x400)
      (hc : c.toNat = 0x10000 + 0x400 * high + low)
        (hcs : UnitText (0xd800 + high) cs)
      (hcs' : UnitText (0xdc00 + low) cs') :
      CharText c ('\\' :: 'u' :: (cs ++ '\\' :: 'u' :: cs'))

/-- Characters up to the closing quotation mark. -/
inductive CharsText : List Char → List Char → Prop
  | close : CharsText [] ['"']
  | cons {c : Char} {text cs cs' : List Char} (hc : CharText c cs)
      (h : CharsText text cs') :
      CharsText (c :: text) (cs ++ cs')

/-- A text in quotation marks. -/
inductive QuotedText (text : String) : List Char → Prop
  | quoted {cs : List Char} (h : CharsText text.toList cs) :
      QuotedText text ('"' :: cs)

/-! ## Numerals -/

/-- A numeral in the strict grammar. -/
structure IsStrict (n : Numeral) : Prop where
  whole : ∀ c ∈ n.whole, c.isDigit = true
  fraction : ∀ c ∈ n.fraction, c.isDigit = true
  lead : n.whole = ['0'] ∨ ∃ d ds, n.whole = d :: ds ∧ d ≠ '0'

/-- The characters of the digits behind the point, and the point, if there are
any. -/
def fractionChars (ds : List Char) : List Char :=
  if ds = [] then [] else '.' :: ds

/-- An exponent, or none.  A plus sign may be left out, and zeros may lead. -/
inductive ExponentText : Option ℤ → List Char → Prop
  | none : ExponentText none []
  | plus {mark : Char} {sign ds : List Char} (hmark : mark = 'e' ∨ mark = 'E')
      (hsign : sign = [] ∨ sign = ['+']) (hne : ds ≠ [])
        (hds : ∀ c ∈ ds, c.isDigit = true) :
      ExponentText (some (Decimal.ofDigits ds)) (mark :: (sign ++ ds))
  | minus {mark : Char} {ds : List Char} (hmark : mark = 'e' ∨ mark = 'E')
      (hne : ds ≠ []) (hds : ∀ c ∈ ds, c.isDigit = true) :
      ExponentText (some (-(Decimal.ofDigits ds : ℤ))) (mark :: '-' :: ds)

/-- A numeral. -/
inductive NumeralText (n : Numeral) : List Char → Prop
  | strict {cs : List Char} (hn : IsStrict n)
      (hcs : ExponentText n.exponent cs) :
      NumeralText n ((if n.negative then ['-'] else []) ++
        (n.whole ++ (fractionChars n.fraction ++ cs)))

/-! ## Values -/

/-- Nothing but blanks. -/
def Blanks (cs : List Char) : Prop :=
  ∀ c ∈ cs, IsBlank c

mutual

/-- A value. -/
inductive ValueText : Json → List Char → Prop
  | null : ValueText .null ['n', 'u', 'l', 'l']
  | true : ValueText (.bool true) ['t', 'r', 'u', 'e']
  | false : ValueText (.bool false) ['f', 'a', 'l', 's', 'e']
  | number {n : Numeral} {cs : List Char} (h : NumeralText n cs) :
      ValueText (.number n) cs
  | string {text : String} {cs : List Char} (h : QuotedText text cs) :
      ValueText (.string (some text)) cs
  | emptyArray {bs : List Char} (h : Blanks bs) :
      ValueText (.array []) ('[' :: (bs ++ [']']))
  | array {items : List Json} {cs : List Char} (h : ItemsText items cs) :
      ValueText (.array items) ('[' :: cs)
  | emptyObject {bs : List Char} (h : Blanks bs) :
      ValueText (.object []) ('{' :: (bs ++ ['}']))
  | object {members : List (Option String × Json)} {cs : List Char}
      (h : MembersText members cs) :
      ValueText (.object members) ('{' :: cs)

/-- A value with blanks around it. -/
inductive ItemText : Json → List Char → Prop
  | item {j : Json} {bs cs bs' : List Char} (hbs : Blanks bs)
      (h : ValueText j cs) (hbs' : Blanks bs') :
      ItemText j (bs ++ (cs ++ bs'))

/-- Items up to the closing bracket, at least one. -/
inductive ItemsText : List Json → List Char → Prop
  | last {j : Json} {cs : List Char} (h : ItemText j cs) :
      ItemsText [j] (cs ++ [']'])
  | more {j : Json} {items : List Json} {cs cs' : List Char}
      (h : ItemText j cs) (hmore : ItemsText items cs') :
      ItemsText (j :: items) (cs ++ ',' :: cs')

/-- A member, with blanks around its name and its value. -/
inductive MemberText : String → Json → List Char → Prop
  | member {name : String} {j : Json} {bs name' bs' cs : List Char}
      (hbs : Blanks bs) (hname : QuotedText name name') (hbs' : Blanks bs')
      (h : ItemText j cs) :
      MemberText name j (bs ++ (name' ++ (bs' ++ ':' :: cs)))

/-- Members up to the closing brace, at least one. -/
inductive MembersText : List (Option String × Json) → List Char → Prop
  | last {name : String} {j : Json} {cs : List Char}
      (h : MemberText name j cs) :
      MembersText [(some name, j)] (cs ++ ['}'])
  | more {name : String} {j : Json} {members : List (Option String × Json)}
      {cs cs' : List Char} (h : MemberText name j cs)
      (hmore : MembersText members cs') :
      MembersText ((some name, j) :: members) (cs ++ ',' :: cs')

end

/-- A whole text writes a value. -/
def IsText (j : Json) (text : String) : Prop :=
  ItemText j text.toList

end PitchFollower.Json
