import PitchFollower.Decimal.Layout
import PitchFollower.Json.Basic
import PitchFollower.Json.Text

/-!
# Writing JSON

The compact form: no blanks, members in the order of the value.
-/

namespace PitchFollower.Json

/-- A finite number by its shortest decimal.  JSON has no numeral for the other
ones, and `null` stands for them. -/
def ofSingle (x : Float32) : Json :=
  if x.isFinite then .number (Decimal.setSingle .stored x) else .null

/-- The text of a string in quotation marks.  Nothing is left of what is no
text. -/
def quoteText (text : Option String) : List Char :=
  quote (text.getD "").toList

mutual

/-- The compact text of a value. -/
def write : Json → List Char
  | .null => "null".toList
  | .bool true => "true".toList
  | .bool false => "false".toList
  | .number n => n.text
  | .string text => quoteText text
  | .array [] => ['[', ']']
  | .array (item :: items) => '[' :: (write item ++ (writeItems items ++ [']']))
  | .object [] => ['{', '}']
  | .object ((name, value) :: members) =>
    '{' ::
      (quoteText name ++ ':' ::
        (write value ++ (writeMembers members ++ ['}'])))

/-- The items behind the first one, each behind a comma. -/
def writeItems : List Json → List Char
  | [] => []
  | item :: items => ',' :: (write item ++ writeItems items)

/-- The members behind the first one, each behind a comma. -/
def writeMembers : List (Option String × Json) → List Char
  | [] => []
  | (name, value) :: members =>
    ',' :: (quoteText name ++ ':' :: (write value ++ writeMembers members))

end

end PitchFollower.Json
