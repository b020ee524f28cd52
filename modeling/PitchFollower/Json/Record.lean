import PitchFollower.Json.Codec

/-!
# Records as JSON

A record is written as an object with all its fields in order.  It is read over
a record of defaults, from an object or from an array.  An object names the
fields that it changes, each at most once, in any order.  Its other members only
have to have a name that is text, and their values are ignored.  An array gives
values for the first fields, in order, and must not be longer than the record.
-/

namespace PitchFollower.Json

/-- A field of a record: its name, its value as JSON, and the record with
another value for it, if the JSON value stands for one. -/
structure Field (ρ : Type) where
  name : String
  get : ρ → Json
  set? : ρ → Json → Option ρ

/-- The field whose values have a codec. -/
def Field.of {ρ α : Type} (name : String) (codec : Codec α) (get : ρ → α)
    (set : ρ → α → ρ) : Field ρ where
  name := name
  get r := codec.write (get r)
  set? r json := (codec.read? json).map (set r)

namespace Record

variable {ρ : Type}

/-- Takes over the members of an object. -/
def setMembers? (fields : List (Field ρ)) (r : ρ) :
    List (Option String × Json) → Option ρ
  | [] => some r
  | (none, _) :: _ => none
  | (some name, value) :: rest =>
    match fields.find? (·.name == name) with
    | none => setMembers? fields r rest
    | some field =>
      if rest.any (·.1 == some name) then none
      else
        match field.set? r value with
        | none => none
        | some r => setMembers? fields r rest

/-- Takes over the items of an array. -/
def setItems? : List (Field ρ) → ρ → List Json → Option ρ
  | _, r, [] => some r
  | [], _, _ :: _ => none
  | field :: fields, r, value :: values =>
    match field.set? r value with
    | none => none
    | some r => setItems? fields r values

/-- The record that a value makes of the defaults. -/
def read? (fields : List (Field ρ)) (defaults : ρ) : Json → Option ρ
  | .object members => setMembers? fields defaults members
  | .array items => setItems? fields defaults items
  | _ => none

/-- The object with all fields. -/
def write (fields : List (Field ρ)) (r : ρ) : Json :=
  .ofMembers (fields.map fun field => (field.name, field.get r))

/-- The codec of a record with defaults. -/
def codec (fields : List (Field ρ)) (defaults : ρ) : Codec ρ where
  read? := read? fields defaults
  write := write fields

end Record

end PitchFollower.Json
