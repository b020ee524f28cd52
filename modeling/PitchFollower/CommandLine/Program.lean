import PitchFollower.CommandLine.Invocation
import PitchFollower.Session.Offline
import PitchFollower.Settings.Stored
import PitchFollower.Wave.Reader
import PitchFollower.Wave.Writer

/-!
# The program

One run of the program over any files: it reads its settings whatever it is
asked for, carries out the command, and ends with the lines that it prints or
with the first error that it meets.
-/

namespace PitchFollower.CommandLine

/-- The files that a run may use.  A file that cannot be read has no content,
and `create` tells whether a file could be written. -/
structure Files (m : Type → Type) where
  read : String → m (Option (List UInt8))
  create : String → List UInt8 → m Bool

/-- Why a run failed. -/
inductive RunError where
  /-- A settings file that cannot be read as text. -/
  | unreadableSettings (path : String)
  /-- A settings file that does not store settings. -/
  | malformedSettings (path : String)
  /-- Settings or a sample rate that are not accepted. -/
  | refused (fault : Fault)
  /-- A recording that could not be read. -/
  | recording (path : String) (error : Wave.ReadError)
  /-- A recording that could not be written. -/
  | uncreated (path : String)
  /-- There is no device to play on. -/
  | noDevice

/-- The text that reports why a run failed. -/
def RunError.message : RunError → String
  | .unreadableSettings path => "Failed to read config file " ++ path
  | .malformedSettings path => "Invalid config file " ++ path
  | .refused fault => fault.message
  | .recording path error =>
    match error with
    | .header => "Failed to open " ++ path
    | .bitDepth bits => s!"Unsupported bit depth {bits}"
    | .truncated => "Failed to read enough bytes."
    | .wideSample => "The sample has more bits than the destination type."
    | .unknownSample => "The wave format of the file is not supported."
  | .uncreated path => "Failed to create " ++ path
  | .noDevice => "No audio or MIDI device available"

/-- How a run ends. -/
inductive Outcome where
  /-- The command line is not in order. -/
  | wrongArguments
  | failed (error : RunError)
  /-- All went well, and these lines are printed. -/
  | done (lines : List String)

/-- The exit code of a run.  A fatal fault has one of its own. -/
def Outcome.exitCode : Outcome → UInt32
  | .done _ => 0
  | .failed (.refused fault) => if fault.IsFatal then 101 else 1
  | .failed _ => 1
  | .wrongArguments => 2

variable {m : Type → Type} [Monad m]

/-- The text in a file, if it is text. -/
def textOf? (content : List UInt8) : Option String :=
  String.fromUTF8? content.toByteArray

/-- The result of a check, with what was refused as an error of the run. -/
def checked {α : Type} (result : Except Fault α) : ExceptT RunError m α :=
  match result with
  | .ok a => pure a
  | .error fault => throw (.refused fault)

/-- The settings in a file, or the standard ones without a file. -/
def settings (files : Files m) (path : Option String) :
    ExceptT RunError m Settings := do
  match path with
  | none => return .standard
  | some path =>
    match Settings.load ((← files.read path).bind textOf?) with
    | .ok settings => return settings
    | .error .unreadable => throw (.unreadableSettings path)
    | .error .malformed => throw (.malformedSettings path)
    | .error (.refused fault) => throw (.refused fault)

/-- The recording in a file. -/
def recording (files : Files m) (path : String) :
    ExceptT RunError m Wave.Recording := do
  match (← files.read path).elim (.error .header) Wave.read with
  | .ok recording => return recording
  | .error error => throw (.recording path error)

/-- Carries out a command, and gives the lines to be printed. -/
def perform (files : Files m) (settings : Settings) :
    Command → ExceptT RunError m (List String)
  | .offline input none => do
    checked (Session.transcribe settings (← recording files input))
  | .offline input (some output) => do
    let undertones ← checked
      (Session.undertones settings (← recording files input))
    if ← files.create output (← checked (Wave.write undertones)) then return []
    else throw (.uncreated output)
  | .liveUndertones (some rate) => do
    discard (checked (Quantizer.ofRate rate .whistle))
    throw .noDevice
  | .liveUndertones none | .liveMidi _ _ | .listInstruments => throw .noDevice

/-- One run of the program. -/
def run (files : Files m) (arguments : List String) : m Outcome := do
  match Invocation.ofArguments? arguments with
  | none => return .wrongArguments
  | some invocation =>
    let result ← (do
      perform files (← settings files invocation.config) invocation.command).run
    match result with
    | .ok lines => return .done lines
    | .error error => return .failed error

end PitchFollower.CommandLine
