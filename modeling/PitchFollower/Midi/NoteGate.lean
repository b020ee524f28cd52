/-!
# The note gate

Decides when notes start and end.  Cycles without a note, or quieter than the
threshold, are passed over and the current note keeps sounding; a loud enough
cycle with another note ends the current one and starts the new one.  So
neither single stray estimates nor short dropouts break a note up.
-/

namespace PitchFollower.Midi

/-- What a cycle asks to be sent, in the order of the fields. -/
structure GateEvents where
  /-- The loudness, if it differs from the last one reported. -/
  expression : Option UInt8
  noteOff : Option UInt8
  noteOn : Option UInt8
deriving DecidableEq, Repr

namespace GateEvents

/-- Nothing to be sent. -/
def isEmpty (e : GateEvents) : Bool :=
  e.expression.isNone && e.noteOff.isNone && e.noteOn.isNone

end GateEvents

/-- The sounding note, the last loudness reported, and the least loudness of a
cycle that starts a note. -/
structure NoteGate where
  sounding : Option UInt8
  lastLoudness : Option UInt8
  threshold : UInt8
deriving DecidableEq, Repr

namespace NoteGate

/-- The threshold unless asked otherwise. -/
def defaultThreshold : UInt8 := 40

/-- A silent gate. -/
def silent (threshold : UInt8) : NoteGate :=
  ⟨none, none, threshold⟩

/-- The note of a cycle that is loud enough to matter. -/
def audibleNote? (g : NoteGate) (note : Option UInt8) (loudness : UInt8) :
    Option UInt8 :=
  if g.threshold ≤ loudness then note else none

/-- Evaluates a cycle. -/
def onCycle (g : NoteGate) (note : Option UInt8) (loudness : UInt8) :
    NoteGate × GateEvents :=
  let expression :=
    if g.lastLoudness = some loudness then none else some loudness
  let heard := { g with lastLoudness := some loudness }
  match g.audibleNote? note loudness with
  | none => (heard, ⟨expression, none, none⟩)
  | some note =>
    if g.sounding = some note then (heard, ⟨expression, none, none⟩)
    else ({ heard with sounding := some note }, ⟨expression, g.sounding,
      some note⟩)

/-- Falls silent, and tells the note that has to be ended, if any. -/
def release (g : NoteGate) : NoteGate × Option UInt8 :=
  ({ g with sounding := none }, g.sounding)

end NoteGate

end PitchFollower.Midi
