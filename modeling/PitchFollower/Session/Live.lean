import PitchFollower.Midi.Transmitter
import PitchFollower.Settings.Basic
import PitchFollower.Undertone.Voice

/-!
# Audio callbacks

What both instruments do when the audio device hands them a buffer.  A callback
never waits: events go to a bounded queue, and what the queue refuses is only
counted.  At the end of each buffer at most one command is taken from a second
queue.
-/

namespace PitchFollower.Session

/-- What a callback can be told. -/
inductive Command where
  /-- Release the sounding note and end the stream. -/
  | stop
deriving DecidableEq, Repr

/-- How many commands may wait. -/
def commandCapacity : Nat := 16

/-- The state of the callback that plays a MIDI instrument.  It reaches the
instrument through an outlet, which is the near end of a queue. -/
structure LiveMidi (σ : Type) where
  detector : Detector (Midi.Transmitter σ)
  commands : BoundedQueue Command
  /-- How often at least one event was refused. -/
  dropped : Nat

namespace LiveMidi

variable {σ ε : Type} [Midi.Outlet σ ε]

/-- A callback before its first buffer, with a display and an outlet. -/
def start (emitter : Midi.Emitter) (outlet : σ) : LiveMidi σ where
  detector := .start ⟨emitter.withMonitor, outlet⟩
  commands := .empty commandCapacity
  dropped := 0

/-- A callback before its first buffer.  The event queue is reserved first. -/
def ofSettings (quantizer : Quantizer) (settings : Midi.EmitterSettings)
    (capacity : Nat) : Except Fault (LiveMidi (BoundedQueue Midi.Event)) := do
  let events ← BoundedQueue.reserve capacity Midi.Event.memoryBytes
  return start (← Midi.Emitter.ofSettings quantizer settings) events

/-- One more refusal, if there was one. -/
def count (dropped : Nat) (refusal : Option ε) : Nat :=
  if refusal.isSome then dropped + 1 else dropped

/-- Hears one sample. -/
def hear (s : LiveMidi σ) (sample : Float32) : LiveMidi σ :=
  let (detector, refusal) := s.detector.hear sample
  { s with detector, dropped := count s.dropped refusal }

/-- Releases the sounding note. -/
def release (s : LiveMidi σ) : LiveMidi σ :=
  let (player, refusal) := s.detector.player.release
  { s with
    detector := { s.detector with player }
    dropped := count s.dropped refusal }

/-- Hears a buffer, and tells whether the stream goes on. -/
def process (s : LiveMidi σ) (input : Array Float32) : LiveMidi σ × Bool :=
  let heard := input.foldl hear s
  match heard.commands.pop with
  | (commands, some .stop) => ({ heard with commands }.release, false)
  | (commands, none) => ({ heard with commands }, true)

/-- The output of the callback is silence. -/
def output (length : Nat) : Array Float32 :=
  Array.replicate length 0

/-- Queues a command, and tells whether there was room for it. -/
def command (s : LiveMidi σ) (c : Command) : LiveMidi σ × Bool :=
  let (commands, queued) := s.commands.push c
  ({ s with commands }, queued)

/-- Takes all events that wait. -/
def drain (s : LiveMidi (BoundedQueue Midi.Event)) :
    LiveMidi (BoundedQueue Midi.Event) × List Midi.Event :=
  let (outlet, events) := s.detector.player.outlet.drain
  ({ s with
      detector :=
        { s.detector with player := { s.detector.player with outlet } } },
    events)

end LiveMidi

/-- The state of the callback that plays undertones. -/
structure LiveUndertone where
  detector : Detector Undertone.Voice
  commands : BoundedQueue Command

namespace LiveUndertone

/-- A callback before its first buffer. -/
def start (voice : Undertone.Voice) : LiveUndertone where
  detector := .start voice
  commands := .empty commandCapacity

/-- Hears a buffer, and gives the output and whether the stream goes on. -/
def process (s : LiveUndertone) (input : Array Float32) :
    LiveUndertone × Array Float32 × Bool :=
  let (detector, output) := s.detector.hearAll input
  let (commands, command) := s.commands.pop
  (⟨detector, commands⟩, output, command.isNone)

/-- Queues a command, and tells whether there was room for it. -/
def command (s : LiveUndertone) (c : Command) : LiveUndertone × Bool :=
  let (commands, queued) := s.commands.push c
  ({ s with commands }, queued)

end LiveUndertone

end PitchFollower.Session
