import VerifiableDelay.Checkpoint.Archive
import VerifiableDelay.Checkpoint.Layout
import VerifiableDelay.Run.Listener
/-!
# Recording a run of known length

A checkpoint is kept on the stride that the length of the run calls for, and
with it the last form. The run is halted once it is as long as wanted.
-/

namespace VerifiableDelay

/-- What is recorded of a run of known length. -/
structure UniformRecorder where
  parameters : Parameters
  /-- Squarings wanted. -/
  wanted : Nat
  archive : Archive
  /-- The form after the squarings wanted. -/
  result : Option Form

namespace UniformRecorder

/-- Where checkpoints go. -/
def layout (r : UniformRecorder) : Layout := .ofRun r.parameters.stride r.wanted

/-- Keeps a checkpoint. -/
def keep (r : UniformRecorder) (f : Form) (iteration : Nat) : UniformRecorder :=
  { r with archive := r.archive.keep (r.layout.slot? iteration 0) f }

/-- Before the first squaring, for a proof with digits as given. -/
def startWith (parameters : Parameters) (x : Form) (wanted : Nat) : UniformRecorder :=
  let store : Store := { capacity := (Layout.ofRun parameters.stride wanted).capacity }
  keep { parameters, wanted, archive := { store }
         result := if wanted = 0 then some x else none } x 0

/-- Before the first squaring, with digits that suit the length of the run. -/
def start (x : Form) (wanted : Nat) : UniformRecorder := startWith (.ofRun wanted) x wanted

/-- Takes the form after `iteration` squarings, unless it is past what is
wanted. -/
def deliver (r : UniformRecorder) (f : Form) (iteration : Nat) : UniformRecorder :=
  if r.wanted < iteration then r
  else
    let r := if iteration % r.parameters.stride = 0 then r.keep f iteration else r
    if iteration = r.wanted then { r with result := some f } else r

/-- What to do at the end of a batch. -/
def boundary (r : UniformRecorder) (done : Nat) : Boundary :=
  if r.wanted ≤ done ∨ r.archive.full then .halt else .proceed

/-- The recorder as a listener. -/
def listener : Listener UniformRecorder where
  deliver := deliver
  boundary r done _ := (r, r.boundary done)

end UniformRecorder

end VerifiableDelay
