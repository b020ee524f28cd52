import PitchFollower.CommandLine.Program

/-!
# Main

The program over the files of the system.
-/

namespace PitchFollower.CommandLine

/-- The files of the system. -/
def systemFiles : Files IO where
  read path := do
    try return some (← IO.FS.readBinFile path).toList
    catch _ => return none
  create path bytes := do
    try
      IO.FS.writeBinFile path bytes.toByteArray
      return true
    catch _ => return false

/-- Prints how a run ended, and gives its exit code. -/
def report (outcome : Outcome) : IO UInt32 := do
  match outcome with
  | .done lines => lines.forM IO.println
  | .failed error => IO.eprintln ("Error: " ++ error.message)
  | .wrongArguments => IO.eprintln "error: unexpected arguments"
  return outcome.exitCode

end PitchFollower.CommandLine

/-- Runs the program with the arguments of the process. -/
def main (arguments : List String) : IO UInt32 := do
  PitchFollower.CommandLine.report
    (← PitchFollower.CommandLine.run PitchFollower.CommandLine.systemFiles
      arguments)
