import PitchFollower.Json.Basic
import PitchFollower.Json.Text

/-!
# Reading JSON

The grammar is strict: no comments, no comma behind the last item, no leading
zeros, digits on both sides of a point, and nothing but blanks around the one
value of a text.  Numbers may have any size, strings need not be text, and
values may be nested to any depth.  The readers take a budget of steps, which
the length of the text bounds, so the reader of a whole text needs none.
-/

namespace PitchFollower.Json

/-- What may stand between the parts of a value. -/
def IsBlank (c : Char) : Prop :=
  c = ' ' ∨ c = '\t' ∨ c = '\n' ∨ c = '\r'

instance (c : Char) : Decidable (IsBlank c) :=
  inferInstanceAs (Decidable (_ ∨ _))

/-- The rest of a text behind the blanks at its start. -/
def skipBlanks (cs : List Char) : List Char :=
  cs.dropWhile (IsBlank ·)

/-- The rest of a text behind a word that it has to begin with. -/
def behind? (word cs : List Char) : Option (List Char) :=
  if word.isPrefixOf cs then some (cs.drop word.length) else none

/-- The digits before the point: a zero alone, or digits that begin with
another one. -/
def wholeDigits? : List Char → Option (List Char × List Char)
  | '0' :: rest => some (['0'], rest)
  | cs =>
    match Numeral.spanDigits cs with
    | ([], _) => none
    | found => some found

/-- The digits behind the point, none if there is no point. -/
def fractionDigits? : List Char → Option (List Char × List Char)
  | '.' :: rest =>
    match Numeral.spanDigits rest with
    | ([], _) => none
    | found => some found
  | cs => some ([], cs)

/-- The exponent behind its mark, if there is a mark. -/
def exponent? : List Char → Option (Option Int × List Char)
  | 'e' :: rest | 'E' :: rest =>
    (Numeral.exponentValue? rest).map fun (e, rest) => (some e, rest)
  | cs => some (none, cs)

/-- A minus sign, if there is one, and the rest. -/
def takeMinus : List Char → Bool × List Char
  | '-' :: rest => (true, rest)
  | cs => (false, cs)

/-- A numeral. -/
def numeral? (cs : List Char) : Option (Numeral × List Char) := do
  let (negative, cs) := takeMinus cs
  let (whole, cs) ← wholeDigits? cs
  let (fraction, cs) ← fractionDigits? cs
  let (exponent, cs) ← exponent? cs
  return ({ negative, whole, fraction, exponent }, cs)

mutual

/-- A value behind blanks, and the rest behind the value. -/
def value? : Nat → List Char → Option (Json × List Char)
  | 0, _ => none
  | budget + 1, cs =>
    match skipBlanks cs with
    | [] => none
    | c :: rest =>
      if c = '"' then
        (quoted? rest).map fun (points, rest) => (.string (text? points), rest)
      else if c = '[' then
        match skipBlanks rest with
        | ']' :: rest => some (.array [], rest)
        | _ =>
          (items? budget rest).map fun (items, rest) => (.array items, rest)
      else if c = '{' then
        match skipBlanks rest with
        | '}' :: rest => some (.object [], rest)
        | _ => (members? budget rest).map fun (members, rest) =>
          (.object members, rest)
      else if c = 'n' then
        (behind? ['u', 'l', 'l'] rest).map fun rest => (.null, rest)
      else if c = 't' then
        (behind? ['r', 'u', 'e'] rest).map fun rest => (.bool true, rest)
      else if c = 'f' then
        (behind? ['a', 'l', 's', 'e'] rest).map fun rest => (.bool false, rest)
      else (numeral? (c :: rest)).map fun (n, rest) => (.number n, rest)

/-- The items of an array, of which there is at least one, up to the closing
bracket. -/
def items? : Nat → List Char → Option (List Json × List Char)
  | 0, _ => none
  | budget + 1, cs =>
    match value? budget cs with
    | none => none
    | some (item, rest) =>
      match skipBlanks rest with
      | ',' :: rest =>
        (items? budget rest).map fun (items, rest) => (item :: items, rest)
      | ']' :: rest => some ([item], rest)
      | _ => none

/-- The members of an object, of which there is at least one, up to the closing
brace. -/
def members? :
    Nat → List Char → Option (List (Option String × Json) × List Char)
  | 0, _ => none
  | budget + 1, cs =>
    match skipBlanks cs with
    | '"' :: rest =>
      match quoted? rest with
      | none => none
      | some (name, rest) =>
        match skipBlanks rest with
        | ':' :: rest =>
          match value? budget rest with
          | none => none
          | some (value, rest) =>
            let member := (text? name, value)
            match skipBlanks rest with
            | ',' :: rest =>
              (members? budget rest).map fun (members, rest) =>
                (member :: members, rest)
            | '}' :: rest => some ([member], rest)
            | _ => none
        | _ => none
    | _ => none

end

/-- Steps that suffice for every text of a length: each level of nesting takes
two and costs a character. -/
def budgetFor (cs : List Char) : Nat :=
  2 * cs.length + 1

/-- The value that a whole text writes. -/
def read? (text : String) : Option Json :=
  match value? (budgetFor text.toList) text.toList with
  | some (value, rest) => if skipBlanks rest = [] then some value else none
  | none => none

end PitchFollower.Json
