/-!
# MIDI events

Channel voice messages and their three byte form on the wire.
-/

namespace PitchFollower.Midi

/-- The controller number of the expression controller. -/
def expressionController : UInt8 := 11

/-- A channel voice message.  Channels are at most 15 and data bytes at most
127. -/
inductive Event where
  | noteOn (channel note velocity : UInt8)
  | noteOff (channel note velocity : UInt8)
  | controlChange (channel controller value : UInt8)
deriving DecidableEq, Repr, Inhabited

namespace Event

/-- The bytes that an event takes up in memory: its kind and its three
numbers. -/
def memoryBytes : Nat := 4

/-- The channel an event is sent on. -/
def channel : Event → UInt8
  | noteOn c _ _ | noteOff c _ _ | controlChange c _ _ => c

/-- The high half of the status byte, which tells the kinds of events apart. -/
def status : Event → UInt8
  | noteOff .. => 0x80
  | noteOn .. => 0x90
  | controlChange .. => 0xb0

/-- The first data byte: a note or a controller. -/
def key : Event → UInt8
  | noteOn _ k _ | noteOff _ k _ | controlChange _ k _ => k

/-- The second data byte: a velocity or a controller value. -/
def value : Event → UInt8
  | noteOn _ _ v | noteOff _ _ v | controlChange _ _ v => v

/-- The three bytes of an event on the wire.  The channel keeps its low four
bits and the data bytes keep their low seven. -/
def toBytes (e : Event) : List UInt8 :=
  [e.status ||| (e.channel &&& 0x0f), e.key &&& 0x7f, e.value &&& 0x7f]

end Event

end PitchFollower.Midi
