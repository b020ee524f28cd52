import PitchFollower.CommandLine.Arguments
import PitchFollower.Decimal.Numeral

/-!
# Invocations

What a command line asks for: one of four commands and a settings file.  The
option for the settings file may stand before the name of the command or behind
it, and behind it it counts more.
-/

namespace PitchFollower.CommandLine

/-- The names of the commands. -/
inductive CommandName where
  | liveMidi
  | liveUndertones
  | offline
  | listInstruments
deriving DecidableEq, Repr

namespace CommandName

/-- All commands. -/
def all : List CommandName :=
  [liveMidi, liveUndertones, offline, listInstruments]

/-- A name as it is written. -/
def text : CommandName → String
  | liveMidi => "live-midi"
  | liveUndertones => "live-resynth"
  | offline => "offline"
  | listInstruments => "list-ports"

/-- The options of a command beside the one for the settings file. -/
def keys : CommandName → List Key
  | liveMidi => [.instrument, .sampleRate]
  | liveUndertones => [.sampleRate]
  | offline => [.output]
  | listInstruments => []

end CommandName

/-- A command with its operands. -/
inductive Command where
  /-- Play a MIDI instrument whose name contains a text. -/
  | liveMidi (name : Option String) (sampleRate : Option Float32)
  /-- Play undertones. -/
  | liveUndertones (sampleRate : Option Float32)
  /-- Transcribe a recording, or write its undertones to another file. -/
  | offline (input : String) (output : Option String)
  /-- List the MIDI instruments. -/
  | listInstruments

/-- A command and the settings file that it uses. -/
structure Invocation where
  config : Option String
  command : Command

/-- The name of a file is not empty. -/
def filePath? (text : String) : Option String :=
  if text.isEmpty then none else some text

/-- The command of a name with its arguments. -/
def CommandName.command? (name : CommandName) (a : Arguments) :
    Option Command := do
  match name, a.words with
  | .liveMidi, [] =>
    return .liveMidi (← a.value? .instrument some)
      (← a.value? .sampleRate Numeral.readSingle?)
  | .liveUndertones, [] =>
    return .liveUndertones (← a.value? .sampleRate Numeral.readSingle?)
  | .offline, [input] =>
    return .offline (← filePath? input) (← a.value? .output filePath?)
  | .listInstruments, [] => return .listInstruments
  | _, _ => none

/-- What the arguments of a program ask for, if they are in order. -/
def Invocation.ofArguments? (arguments : List String) : Option Invocation := do
  let front ← Arguments.ofList? [.config] true arguments
  let outer ← front.value? .config filePath?
  match front.words with
  | [] => none
  | word :: rest =>
    let name ← CommandName.all.find? (·.text == word)
    let a ← Arguments.ofList? (.config :: name.keys) false rest
    let inner ← a.value? .config filePath?
    return { config := inner.or outer, command := ← name.command? a }

end PitchFollower.CommandLine
