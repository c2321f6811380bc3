import VerifiableDelay.Proof.Chain
import VerifiableDelay.Proof.Power
import VerifiableDelay.Checkpoint.View
import VerifiableDelay.Recorder.Uniform
import VerifiableDelay.Run.Session
/-!
# A run proven in one piece

A run of known length is waited for and proven as one segment, from
the checkpoints that its recorder kept.
-/

namespace VerifiableDelay

namespace Whole

variable (o : Overflow) (s : Settings) (d : Discriminant) (x : Form)

/-- Starts a run that is recorded for one proof, with digits as given. -/
def startWith (parameters : Parameters) (wanted : Nat) (accelerator : Accelerator)
    (bound : Option Nat) : Except DelayError (Run UniformRecorder) :=
  Run.start o s d x UniformRecorder.listener (UniformRecorder.startWith parameters x wanted)
    accelerator bound

/-- Starts a run that is recorded for one proof. -/
def start (wanted : Nat) (accelerator : Accelerator) (bound : Option Nat) :
    Except DelayError (Run UniformRecorder) :=
  startWith o s d x (.ofRun wanted) wanted accelerator bound

/-- The checkpoints of the run. -/
def view (r : UniformRecorder) : View where
  store := r.archive.store
  layout := r.layout
  start := 0
  stride := r.parameters.stride
  level := 0

/-- The checkpoints of the run, each when it is taken. -/
def checkpoints (k : Look UniformRecorder) : Checkpoints := fun i =>
  (view (k.taken i).listening).read (k.seen i).progress.count i

/-- The run from `x` as one segment. -/
def segmentAt (k : Look UniformRecorder) (iterations : Nat) : Except DelayError Segment := do
  let _ ← k.opened.await iterations
  match k.ended.listening.result with
  | none => .error (.missing iterations)
  | some y =>
    let proof ← Power.prove d x y (checkpoints k) iterations k.opened.listening.parameters
      k.checked.stopRaised
    return { start := 0, length := iterations, x, y, proof }

/-- Proves a run while it goes on. -/
def proveFrom (r : Run UniformRecorder) (k : Look UniformRecorder) (iterations : Nat) :
    Except DelayError Proof := do
  Chain.encode r.discriminant [← segmentAt r.discriminant r.x k iterations]

/-- Squares `x` and proves the result, with digits as given. -/
def proveWith (parameters : Parameters) (iterations : Nat) (accelerator : Accelerator) :
    Except DelayError Proof := do
  let run ← startWith o s d x.reduced parameters iterations accelerator (some iterations)
  proveFrom run (.at run.attend.engine) iterations

/-- **Squares** `x` and proves the result. -/
def prove (iterations : Nat) (accelerator : Accelerator) : Except DelayError Proof :=
  proveWith o s d x (.ofRun iterations) iterations accelerator

end Whole

end VerifiableDelay
