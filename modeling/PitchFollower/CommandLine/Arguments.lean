/-!
# Arguments

A command line is taken apart into words and options with values.  A long option
has its value behind an equals sign or in the next argument, a short one behind
its letter, with or without an equals sign, or in the next argument.  A value in
an argument of its own must not look like an option.  Behind two dashes every
argument is a word.
-/

namespace PitchFollower.CommandLine

/-- The options that take a value. -/
inductive Key where
  | config
  | output
  | instrument
  | sampleRate
deriving DecidableEq, Repr

namespace Key

/-- The long name of an option. -/
def long : Key → String
  | config => "config"
  | output => "output"
  | instrument => "port"
  | sampleRate => "sample-rate"

/-- The letter of an option, if it has one. -/
def short? : Key → Option Char
  | config => some 'c'
  | output => some 'o'
  | instrument => some 'p'
  | sampleRate => none

end Key

/-- What a single argument is. -/
inductive Part where
  | word
  /-- Two dashes: only words follow. -/
  | endOfOptions
  /-- An option with its value. -/
  | setting (key : Key) (value : String)
  /-- An option whose value is in the next argument. -/
  | waiting (key : Key)
  /-- An option that is not known. -/
  | unknown
deriving DecidableEq, Repr

/-- The part with an option of a list that satisfies a test. -/
def settingOf (keys : List Key) (is : Key → Bool) (value : Option (List Char)) :
    Part :=
  match keys.find? is, value with
  | some key, some value => .setting key (String.ofList value)
  | some key, none => .waiting key
  | none, _ => .unknown

/-- The value behind a letter, without the equals sign. -/
def attached? : List Char → Option (List Char)
  | [] => none
  | '=' :: value => some value
  | value => some value

/-- The value behind the equals sign of a long option. -/
def assigned? (cs : List Char) : Option (List Char) :=
  match cs.dropWhile (· != '=') with
  | [] => none
  | _ :: value => some value

/-- What an argument is where a list of options is known. -/
def partOf (keys : List Key) (argument : String) : Part :=
  match argument.toList with
  | ['-', '-'] => .endOfOptions
  | '-' :: '-' :: cs =>
    settingOf keys (fun key => key.long.toList == cs.takeWhile (· != '='))
      (assigned? cs)
  | '-' :: c :: cs =>
    settingOf keys (fun key => key.short? == some c) (attached? cs)
  | _ => .word

/-- An argument that cannot be the value of the option before it. -/
def LooksLikeOption (argument : String) : Prop :=
  match argument.toList with
  | '-' :: _ :: _ => True
  | _ => False

instance (argument : String) : Decidable (LooksLikeOption argument) := by
  unfold LooksLikeOption
  split <;> infer_instance

/-- Options with their values in the order given, and words. -/
structure Arguments where
  settings : List (Key × String)
  words : List String
deriving DecidableEq, Repr

namespace Arguments

/-- One more option in front. -/
def withSetting (key : Key) (value : String) (a : Arguments) : Arguments :=
  { a with settings := (key, value) :: a.settings }

/-- One more word in front. -/
def withWord (word : String) (a : Arguments) : Arguments :=
  { a with words := word :: a.words }

/-- Takes arguments apart.  If only the options in front are wanted, the words
are the first word and everything behind it. -/
def ofList? (keys : List Key) (front : Bool) : List String → Option Arguments
  | [] => some ⟨[], []⟩
  | argument :: rest =>
    match partOf keys argument with
    | .word =>
      if front then some ⟨[], argument :: rest⟩
      else (ofList? keys front rest).map (withWord argument)
    | .endOfOptions => if front then none else some ⟨[], rest⟩
    | .setting key value =>
      (ofList? keys front rest).map (withSetting key value)
    | .waiting key =>
      match rest with
      | [] => none
      | value :: rest =>
        if LooksLikeOption value then none
        else (ofList? keys front rest).map (withSetting key value)
    | .unknown => none

/-- The value of an option that may be given once and is read by `read?`.  The
outer layer is missing if the option is given twice or its value cannot be
read. -/
def value? {α : Type} (a : Arguments) (key : Key) (read? : String → Option α) :
    Option (Option α) :=
  match (a.settings.filter (·.1 == key)).map (·.2) with
  | [] => some none
  | [value] => (read? value).map some
  | _ => none

end Arguments

end PitchFollower.CommandLine
