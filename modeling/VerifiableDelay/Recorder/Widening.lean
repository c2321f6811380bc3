import VerifiableDelay.Checkpoint.Archive
import VerifiableDelay.Checkpoint.Layout
import VerifiableDelay.Run.Listener
import VerifiableDelay.Settings
/-!
# Recording a run of unknown length

Checkpoints are kept on a stride that widens once. When the run is long
enough the recorder asks for a multiple of a hundred and widens the stride
there; when it comes near what there is room for it halts the run.
-/

namespace VerifiableDelay

/-- What is recorded of a run of unknown length. -/
structure WideningRecorder where
  layout : Widening
  archive : Archive
  /-- From where on the stride may widen. -/
  switchIterations : Nat
  /-- Where the run is halted. -/
  haltAt : Nat

namespace WideningRecorder

/-- Keeps a checkpoint. -/
def keep (r : WideningRecorder) (f : Form) (iteration : Nat) : WideningRecorder :=
  { r with archive := r.archive.keep (r.layout.slot? iteration) f }

/-- Nothing recorded yet. -/
def empty (s : Settings) : WideningRecorder where
  layout := .ofLimits s.switchIterations s.maxIterations
  archive := { store := { capacity := (Widening.ofLimits s.switchIterations s.maxIterations).capacity } }
  switchIterations := s.switchIterations
  haltAt := s.maxIterations - s.haltMargin

/-- Before the first squaring. -/
def start (o : Overflow) (s : Settings) (x : Form) : Except DelayError WideningRecorder := do
  s.validate o
  return (empty s).keep x 0

/-- Takes the form after `iteration` squarings. -/
def deliver (r : WideningRecorder) (f : Form) (iteration : Nat) : WideningRecorder :=
  if iteration % r.layout.strideAt iteration = 0 then r.keep f iteration else r

/-- What to do at the end of a batch. -/
def boundary (r : WideningRecorder) (done : Nat) : Boundary :=
  if r.archive.full ∨ r.haltAt ≤ done then .halt
  else if r.switchIterations ≤ done ∧ r.layout.switch.isNone then .alignTo 100
  else .proceed

/-- Widens the stride, the first time. -/
def aligned (r : WideningRecorder) (done : Nat) : WideningRecorder :=
  if r.layout.switch.isNone then { r with layout := r.layout.widen done } else r

/-- The recorder as a listener. -/
def listener : Listener WideningRecorder where
  deliver := deliver
  boundary r done _ := (r, r.boundary done)
  aligned := aligned

/-- The form kept for an iteration on the stride. -/
def formAt? (r : WideningRecorder) (iteration : Nat) : Except DelayError (Option Form) := do
  return r.archive.store.get? (← (Layout.widening r.layout).slot iteration 0)

/-- The form kept for an iteration. -/
def formAt (r : WideningRecorder) (iteration : Nat) : Except DelayError Form := do
  match ← r.formAt? iteration with
  | some f => .ok f
  | none => .error (.missing iteration)

end WideningRecorder

end VerifiableDelay
