import VerifiableDelay.Integer.Size
import VerifiableDelay.Proof.Whole
import VerifiableDelay.Recorder.Widening
/-!
# A run proven in three pieces

A run of unknown length can be proven up to any iteration it has passed. The
first two thirds make a segment, two thirds of the rest another, and what
remains the last, so that most of the proof can be made before the run gets
there. Segments end at multiples of a hundred, but for the last: its end is
squared up to from the checkpoint before it.
-/

namespace VerifiableDelay

namespace Thirds

/-- Segments before the last. -/
def splits : Nat := 2

/-- From this length on a segment takes every hundredth form as a
checkpoint. -/
def longSegment : Nat := 10000000

/-- Two thirds of a length, down to a multiple of a hundred. -/
def splitPoint (length : Nat) : Nat := roundDown (length / 3 * 2 + length % 3 * 2 / 3) 100

/-- Parameters of a segment. Past the point where the stride may have
widened only every hundredth form is sure to be there. -/
def parameters (switchIterations start length : Nat) : Parameters :=
  if longSegment ≤ length ∨ switchIterations < start + length then
    .atLeastOne 10 10
  else .atLeastOne 10 1

/-- Starts a run, for `bound` squarings or until it is stopped. -/
def startWithin (o : Overflow) (s : Settings) (d : Discriminant) (x : Form)
    (accelerator : Accelerator) (bound : Option Nat) :
    Except DelayError (Run WideningRecorder) := do
  Run.start o s d x WideningRecorder.listener (← WideningRecorder.start o s x) accelerator bound

/-- Starts a run of unknown length. -/
def start (o : Overflow) (s : Settings) (d : Discriminant) (x : Form) (accelerator : Accelerator) :
    Except DelayError (Run WideningRecorder) :=
  startWithin o s d x accelerator none

/-- The checkpoints of a segment. -/
def view (r : WideningRecorder) (start length : Nat) : View where
  store := r.archive.store
  layout := .widening r.layout
  start := start
  stride := (parameters r.switchIterations start length).stride
  level := 0

/-- The checkpoints of a segment, each when it is taken. -/
def checkpoints (k : Look WideningRecorder) (start length : Nat) : Checkpoints := fun i =>
  (view (k.taken i).listening start length).read (k.seen i).progress.count i

/-- Proves a segment from `x` to `y`. -/
def segmentAt (d : Discriminant) (k : Look WideningRecorder) (x y : Form) (start length : Nat) :
    Except DelayError Segment := do
  let parameters := parameters k.opened.listening.switchIterations start length
  let proof ← Power.prove d x y (checkpoints k start length) length parameters
    k.checked.stopRaised
  return { start, length, x, y, proof }

/-- The last segment, from `x` after `done` squarings. -/
def lastSegment (d : Discriminant) (k : Look WideningRecorder) (x : Form) (length done : Nat) :
    Except DelayError Segment := do
  let last := done + length
  let _ ← k.opened.await last
  let checkpoint := roundDown last 100
  let f ← k.ended.listening.formAt checkpoint
  segmentAt d k x (f.squareTimes d (last - checkpoint)) done length

/-- The segments of `length` squarings from `x` on, after `done` squarings,
with `splits` of them before the last, each looked at by a prover of its own.
What is wrong with a segment counts before what is wrong further on, but a
segment is not begun before its end has been reached. -/
def segments (d : Discriminant) (looks : (splits : Nat) → Look WideningRecorder) :
    (splits : Nat) → (x : Form) → (length done : Nat) → Except DelayError (List Segment)
  | 0, x, length, done => do return [← lastSegment d (looks 0) x length done]
  | splits + 1, x, length, done => do
    let k := looks (splits + 1)
    let first := splitPoint length
    let _ ← k.opened.await (done + first)
    let y ← k.ended.listening.formAt (done + first)
    let head ← segmentAt d k x y done first
    return head :: (← segments d looks splits y (length - first) (done + first))

/-- Proves the first `iterations` squarings of a run while it goes on. -/
def proveWith (r : Run WideningRecorder) (looks : (splits : Nat) → Look WideningRecorder)
    (iterations : Nat) : Except DelayError Proof := do
  Chain.encode r.discriminant (← segments r.discriminant looks splits r.x iterations 0)

/-- **Proves** the first `iterations` squarings of a run that has got so
far. -/
def prove (r : Run WideningRecorder) (iterations : Nat) : Except DelayError Proof :=
  proveWith r (fun _ => .at r.engine) iterations

end Thirds

end VerifiableDelay
