import PitchFollower.Main
import PitchFollower.Session.Forwarding
import PitchFollower.Session.Live
import PitchFollower.Session.Stop
import PitchFollower.Tuning.Temperament
import PitchFollower.Proofs.Binary.Formats
import PitchFollower.Proofs.Single.Exact
import PitchFollower.Proofs.Single.Rounding
import PitchFollower.Proofs.Single.Arithmetic
import PitchFollower.Proofs.Single.Order
import PitchFollower.Proofs.Single.Magnitude
import PitchFollower.Proofs.Single.Conversions
import PitchFollower.Proofs.Single.Cosine
import PitchFollower.Proofs.Single.Scaling
import PitchFollower.Proofs.Single.Errors
import PitchFollower.Proofs.Single.Sums
import PitchFollower.Proofs.Period.Timing
import PitchFollower.Proofs.Period.Cycles
import PitchFollower.Proofs.Period.Hearing
import PitchFollower.Proofs.Period.Reports
import PitchFollower.Proofs.Period.Carry
import PitchFollower.Proofs.Period.Drift
import PitchFollower.Proofs.Period.Gain
import PitchFollower.Proofs.Period.Energies
import PitchFollower.Proofs.Period.Periodic
import PitchFollower.Proofs.Period.Recurrence
import PitchFollower.Proofs.Midi.Delivery
import PitchFollower.Proofs.Midi.Notes
import PitchFollower.Proofs.Midi.Refusals
import PitchFollower.Proofs.Midi.Wire
import PitchFollower.Proofs.Midi.Expression
import PitchFollower.Proofs.Midi.Slots
import PitchFollower.Proofs.Midi.Windows
import PitchFollower.Proofs.Midi.Steady
import PitchFollower.Proofs.Tuning.Range
import PitchFollower.Proofs.Tuning.Descent
import PitchFollower.Proofs.Tuning.Centres
import PitchFollower.Proofs.Undertone.Outputs
import PitchFollower.Proofs.Undertone.Answers
import PitchFollower.Proofs.Undertone.Bounds
import PitchFollower.Proofs.Session.Handover
import PitchFollower.Proofs.Session.Interleaving
import PitchFollower.Proofs.Session.Teardown
import PitchFollower.Proofs.Undertone.Notes
import PitchFollower.Proofs.Settings.Stored
import PitchFollower.Proofs.Settings.Partial
import PitchFollower.Proofs.Period.Peaks
import PitchFollower.Proofs.Midi.Quiet
import PitchFollower.Proofs.Decimal.Fixed
import PitchFollower.Proofs.Session.Times
import PitchFollower.Proofs.Session.Transcript
import PitchFollower.Proofs.Session.Forwarding
import PitchFollower.Proofs.Single.Monotone
import PitchFollower.Proofs.Midi.Loudness
import PitchFollower.Proofs.Wave.Bytes
import PitchFollower.Proofs.Wave.Readback
import PitchFollower.Proofs.Single.Logarithm
import PitchFollower.Proofs.Single.WholeNumbers
import PitchFollower.Proofs.Tuning.Cents
import PitchFollower.Proofs.Undertone.Lookups
import PitchFollower.Proofs.Undertone.Phases
import PitchFollower.Proofs.Wave.Frames
