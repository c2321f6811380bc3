import VerifiableDelay.Main
import VerifiableDelay.Proofs.Form.Reduction
import VerifiableDelay.Proofs.Form.Rounds
import VerifiableDelay.Proofs.Euclid.Bezout
import VerifiableDelay.Proofs.Euclid.Descent
import VerifiableDelay.Proofs.Euclid.Window
import VerifiableDelay.Proofs.Euclid.Partial
import VerifiableDelay.Proofs.Euclid.Sequence
import VerifiableDelay.Proofs.Euclid.Stopping
import VerifiableDelay.Proofs.Euclid.Exact
import VerifiableDelay.Proofs.Prime.Jacobi
import VerifiableDelay.Proofs.Prime.Symbol
import VerifiableDelay.Proofs.Prime.Residue
import VerifiableDelay.Proofs.Prime.Selfridge
import VerifiableDelay.Proofs.Prime.Sequences
import VerifiableDelay.Proofs.Prime.Acceptance
import VerifiableDelay.Proofs.Prime.Condition
import VerifiableDelay.Proofs.Bytes.Complement
import VerifiableDelay.Proofs.Bytes.Cycle
import VerifiableDelay.Proofs.Prime.Nonces
import VerifiableDelay.Proofs.Form.Concordant
import VerifiableDelay.Proofs.Form.Composition
import VerifiableDelay.Proofs.Class.Order
import VerifiableDelay.Proofs.Class.Group
import VerifiableDelay.Proofs.Class.Laws
import VerifiableDelay.Proofs.Euclid.Division
import VerifiableDelay.Proofs.Euclid.Cofactor
import VerifiableDelay.Proofs.Form.Division
import VerifiableDelay.Proofs.Form.Duplication
import VerifiableDelay.Proofs.Class.Gauss
import VerifiableDelay.Proofs.Integer.Roots
import VerifiableDelay.Proofs.Form.Compressed
import VerifiableDelay.Proofs.Form.Codec
import VerifiableDelay.Proofs.Form.Readable
import VerifiableDelay.Proofs.Form.Fit
import VerifiableDelay.Proofs.Challenge
import VerifiableDelay.Proofs.Class.Power
import VerifiableDelay.Proofs.Class.Exponent
import VerifiableDelay.Proofs.Proof.Power
import VerifiableDelay.Proofs.Quotient.Walk
import VerifiableDelay.Proofs.Proof.Reading
import VerifiableDelay.Proofs.Proof.Alone
import VerifiableDelay.Proofs.Run.Steps
import VerifiableDelay.Proofs.Run.Termination
import VerifiableDelay.Proofs.Run.Record
import VerifiableDelay.Proofs.Run.Transparency
import VerifiableDelay.Proofs.Proof.Chain
import VerifiableDelay.Proofs.Proof.Wire
import VerifiableDelay.Proofs.Proof.Malformed
import VerifiableDelay.Proofs.Proof.Verdict
import VerifiableDelay.Proofs.Checkpoint.Rolling
import VerifiableDelay.Proofs.Checkpoint.Widening
import VerifiableDelay.Proofs.Proof.Segment
import VerifiableDelay.Proofs.Proof.Plan
import VerifiableDelay.Proofs.Proof.Segmented
import VerifiableDelay.Proofs.Recorder.Ends
import VerifiableDelay.Proofs.Proof.Tiling
import VerifiableDelay.Proofs.Proof.Slots
import VerifiableDelay.Proofs.Proof.Thirds
import VerifiableDelay.Proofs.Proof.Whole
import VerifiableDelay.Proofs.Proof.Overrun
import VerifiableDelay.Proofs.Run.Pace
import VerifiableDelay.Proofs.Proof.Timely
import VerifiableDelay.Proofs.Recorder.Retention
import VerifiableDelay.Proofs.Recorder.Room
import VerifiableDelay.Proofs.Recorder.Overflow
