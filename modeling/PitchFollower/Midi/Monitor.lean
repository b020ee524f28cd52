/-!
# Monitors

The sounding note and the loudness as last published, for a display.  The note
takes one byte, and a byte that is no MIDI note says that there is none.
-/

namespace PitchFollower.Midi

/-- What is published for a display. -/
structure Monitor where
  /-- The byte that stands for the note. -/
  noteByte : UInt8
  loudness : UInt8
deriving DecidableEq, Repr

namespace Monitor

/-- The byte that stands for no note. -/
def noNote : UInt8 := 255

/-- A display before anything has been published. -/
def blank : Monitor :=
  ⟨noNote, 0⟩

/-- What is published about a note, if there is one, and a loudness. -/
def showing (note : Option UInt8) (loudness : UInt8) : Monitor :=
  ⟨note.getD noNote, loudness⟩

/-- The note that is shown, if there is one. -/
def note (m : Monitor) : Option UInt8 :=
  if m.noteByte = noNote then none else some m.noteByte

end Monitor

end PitchFollower.Midi
