/-!
# Stopping on a line of input

A session ends when a line is read from standard input.  Input that is closed or
unreadable does not end it.
-/

namespace PitchFollower.Session.Stop

/-- The bytes of the first line, its end included. -/
def firstLine : List UInt8 → List UInt8
  | [] => []
  | byte :: rest => if byte = 0x0a then [byte] else byte :: firstLine rest

/-- How many bytes the first line has, if it is text. -/
def lineLength? (input : List UInt8) : Option Nat :=
  let line := firstLine input
  if line.toByteArray.validateUTF8 then some line.length else none

/-- Whether reading a line has read anything.  `read` is the number of bytes, if
there was no error. -/
def isLine (read : Option Nat) : Bool :=
  match read with
  | some count => decide (0 < count)
  | none => false

/-- Whether a session stops when standard input holds these bytes. -/
def stopsOn (input : List UInt8) : Bool :=
  isLine (lineLength? input)

end PitchFollower.Session.Stop
