/-!
# Recordings

Samples with the rate at which they follow each other.
-/

namespace PitchFollower.Wave

/-- A signal with one channel. -/
structure Recording where
  /-- Samples per second. -/
  rate : UInt32
  samples : Array Float32

end PitchFollower.Wave
