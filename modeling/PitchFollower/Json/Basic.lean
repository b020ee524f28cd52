import PitchFollower.Decimal.Numeral

/-!
# JSON values

A JSON value keeps what was written: numbers keep their digits, and objects keep
their members in order, with repeated names.  What a number or a repeated name
means is decided by the reader of a record.  A string or a name may hold escapes
that stand for no character, and then it has no text.
-/

namespace PitchFollower

/-- A JSON value. -/
inductive Json where
  | null
  | bool (value : Bool)
  | number (value : Numeral)
  | string (text : Option String)
  | array (items : List Json)
  | object (members : List (Option String × Json))
deriving Inhabited

namespace Json

/-- An integer as a number. -/
def ofInt (i : Int) : Json :=
  .number (.ofInt i)

/-- Text as a string. -/
def ofText (text : String) : Json :=
  .string (some text)

/-- The object with these members, each of which has a name. -/
def ofMembers (members : List (String × Json)) : Json :=
  .object (members.map fun (name, value) => (some name, value))

end Json

end PitchFollower
