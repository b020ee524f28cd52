/-!
# Room in memory

A buffer has to be addressable by signed words of 64 bits.  What asks for more
is refused before anything is reserved.
-/

namespace PitchFollower

/-- The most bytes that one buffer may take up. -/
def maxBufferBytes : Nat := 9223372036854775807

/-- There is room for a buffer of `count` items of `bytes` bytes each. -/
def HasRoom (count bytes : Nat) : Prop :=
  count * bytes ≤ maxBufferBytes

instance (count bytes : Nat) : Decidable (HasRoom count bytes) :=
  inferInstanceAs (Decidable (_ ≤ _))

end PitchFollower
