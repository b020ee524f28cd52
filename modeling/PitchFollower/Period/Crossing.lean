import PitchFollower.Single.Basic

/-!
# Falling crossings

The signal crosses zero downwards somewhere between the last sample that was
not negative and the first one that is.  The straight line between the two
samples says where.
-/

namespace PitchFollower.Crossing

/-- How far before the first negative sample the crossing lies, as a part of
the distance between the two samples.  The crossing lies at the negative sample
itself if the line does not fall. -/
def fraction (last first : Float32) : Float32 :=
  let drop := last - first
  if 0 < drop then -first / drop else 0

end PitchFollower.Crossing
