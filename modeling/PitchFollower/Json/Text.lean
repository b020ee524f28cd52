/-!
# Quoted text

Strings between quotation marks.  A backslash begins an escape: one of eight
single letters, or `u` with the four hexadecimal digits of a UTF-16 code unit.
Control characters have to be escaped.  A character beyond the first 65536 takes
the escapes of both its units.  A unit without its partner may be quoted, but
what it is part of is no text.
-/

namespace PitchFollower.Json

/-- The value of a hexadecimal digit. -/
def hexValue? (c : Char) : Option Nat :=
  if '0' ≤ c ∧ c ≤ '9' then some (c.toNat - '0'.toNat)
  else if 'a' ≤ c ∧ c ≤ 'f' then some (c.toNat - 'a'.toNat + 10)
  else if 'A' ≤ c ∧ c ≤ 'F' then some (c.toNat - 'A'.toNat + 10)
  else none

/-- The code unit written by four hexadecimal digits. -/
def codeUnit? (a b c d : Char) : Option Nat := do
  let a ← hexValue? a
  let b ← hexValue? b
  let c ← hexValue? c
  let d ← hexValue? d
  return 16 * (16 * (16 * a + b) + c) + d

/-- A unit that begins a pair. -/
def IsHighUnit (unit : Nat) : Prop :=
  0xd800 ≤ unit ∧ unit < 0xdc00

/-- A unit that ends a pair. -/
def IsLowUnit (unit : Nat) : Prop :=
  0xdc00 ≤ unit ∧ unit < 0xe000

instance (unit : Nat) : Decidable (IsHighUnit unit) :=
  inferInstanceAs (Decidable (_ ∧ _))

instance (unit : Nat) : Decidable (IsLowUnit unit) :=
  inferInstanceAs (Decidable (_ ∧ _))

/-- The character of a pair of units. -/
def ofPair (high low : Nat) : Char :=
  .ofNat (0x10000 + 0x400 * (high - 0xd800) + (low - 0xdc00))

/-- The character of an escape of a single letter. -/
def escaped? (c : Char) : Option Char :=
  if c = '"' ∨ c = '\\' ∨ c = '/' then some c
  else if c = 'b' then some '\x08'
  else if c = 'f' then some '\x0c'
  else if c = 'n' then some '\n'
  else if c = 'r' then some '\r'
  else if c = 't' then some '\t'
  else none

/-- Reads up to the closing quotation mark: the code points and units in
between, and the rest behind the mark. -/
def quoted? : List Char → Option (List Nat × List Char)
  | '\\' :: 'u' :: a :: b :: c :: d :: rest =>
    match codeUnit? a b c d with
    | none => none
    | some unit =>
      (quoted? rest).map fun (points, rest) => (unit :: points, rest)
  | '\\' :: c :: rest =>
    match escaped? c with
    | none => none
    | some c =>
      (quoted? rest).map fun (points, rest) => (c.toNat :: points, rest)
  | '"' :: rest => some ([], rest)
  | c :: rest =>
    if c = '\\' ∨ c.toNat < 0x20 then none
    else (quoted? rest).map fun (points, rest) => (c.toNat :: points, rest)
  | [] => none

/-- The characters of code points and units, if each unit has its partner. -/
def characters? : List Nat → Option (List Char)
  | [] => some []
  | point :: points =>
    if IsLowUnit point then none
    else if IsHighUnit point then
      match points with
      | [] => none
      | low :: points =>
        if IsLowUnit low then
          (characters? points).map (ofPair point low :: ·)
        else none
    else (characters? points).map (.ofNat point :: ·)

/-- The text of code points and units, if each unit has its partner. -/
def text? (points : List Nat) : Option String :=
  (characters? points).map String.ofList

/-- A hexadecimal digit in lower case. -/
def hexDigit (n : Nat) : Char :=
  Nat.digitChar n

/-- A character between quotation marks, escaped if it has to be. -/
def escape (c : Char) : List Char :=
  if c = '"' ∨ c = '\\' then ['\\', c]
  else if c = '\x08' then ['\\', 'b']
  else if c = '\x0c' then ['\\', 'f']
  else if c = '\n' then ['\\', 'n']
  else if c = '\r' then ['\\', 'r']
  else if c = '\t' then ['\\', 't']
  else if c.toNat < 0x20 then
    ['\\', 'u', '0', '0', hexDigit (c.toNat / 16), hexDigit (c.toNat % 16)]
  else [c]

/-- Text in quotation marks. -/
def quote (text : List Char) : List Char :=
  '"' :: (text.flatMap escape ++ ['"'])

end PitchFollower.Json
