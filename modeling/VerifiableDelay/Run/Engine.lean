import VerifiableDelay.Integer.Size
import VerifiableDelay.Form.Compose
import VerifiableDelay.Progress
import VerifiableDelay.Run.Listener
/-!
# The squaring loop

Squarings are first asked of a fast path, in batches. A batch is taken if
all its forms are reduced and of the right discriminant; otherwise, and
where the fast path fails or falls short, one squaring of the loop's own
makes sure that it gets on. Whichever way a form came about, the listener
gets each one once and in order. The stop flag is looked at before a batch
is asked for and before each form is handed on.

The loop goes in steps, each with at most one call to the outside, so every
state in which something outside can look at the run is one between two
steps.
-/

namespace VerifiableDelay

/-- What a fast path made of a batch. -/
inductive Outcome where
  /-- The forms after the first squarings of the batch. -/
  | completed (forms : List Form)
  | corrupted
  | unavailable
  deriving DecidableEq

/-- The answer of a fast path. -/
structure Reply where
  outcome : Outcome
  /-- Whether the run was asked to stop meanwhile. -/
  stop : Bool := false

/-- A fast path: its answer to attempt number `attempt`, made at a form that
`done` squarings led to, for `requested` more; `none` while there is no
answer yet. -/
abbrev Accelerator := (attempt : Nat) → Form → (done requested : Nat) → Option Reply

/-- No fast path at all. -/
def Accelerator.absent : Accelerator := fun _ _ _ _ => some { outcome := .unavailable }

/-- Where the loop is. -/
inductive Phase where
  /-- About to ask for a batch. -/
  | ready
  /-- A batch of this size is asked for. -/
  | asked (requested : Nat)
  /-- Handing on the forms of a batch that may be short of what was asked. -/
  | handing (forms : List Form) (short : Bool)
  /-- At the end of a batch. -/
  | boundary
  /-- On the way to a multiple of `step`. -/
  | aligning (step : Nat)
  /-- About to publish the count, for the last time or not. -/
  | publishing (last : Bool)
  | closing
  | ended
  deriving DecidableEq

/-- What a finished run has to say. -/
structure Report where
  iterations : Nat
  fastBatches : Nat
  fastIterations : Nat
  slowIterations : Nat
  corruptedBatches : Nat
  halted : Bool
  stopped : Bool
  /-- The last form. -/
  y : Form
  deriving DecidableEq

/-- The state of a run, with that of its listener. -/
structure Engine (σ : Type) where
  listening : σ
  form : Form
  done : Nat := 0
  attempts : Nat := 0
  phase : Phase := .ready
  progress : Progress := {}
  /-- The stop flag. -/
  stopRaised : Bool := false
  fastBatches : Nat := 0
  fastIterations : Nat := 0
  slowIterations : Nat := 0
  corruptedBatches : Nat := 0
  halted : Bool := false
  stopped : Bool := false

namespace Engine

/-- Raises the stop flag, which is never lowered. -/
def stop {σ : Type} (e : Engine σ) : Engine σ := { e with stopRaised := true }

/-- The report, which is final once the run has ended. -/
def report {σ : Type} (e : Engine σ) : Report where
  iterations := e.done
  fastBatches := e.fastBatches
  fastIterations := e.fastIterations
  slowIterations := e.slowIterations
  corruptedBatches := e.corruptedBatches
  halted := e.halted
  stopped := e.stopped
  y := e.form

end Engine

/-- What stays the same through a run. -/
structure Loop (σ : Type) where
  discriminant : Discriminant
  listener : Listener σ
  accelerator : Accelerator := Accelerator.absent
  batchSize : Nat
  /-- Squarings to make, or `none` to go on until stopped or halted. -/
  bound : Option Nat

namespace Loop

variable {σ : Type}

/-- The state a run begins in. -/
def start (x : Form) (listening : σ) (stopRaised : Bool) : Engine σ :=
  { listening, form := x.reduced, stopRaised }

/-- Squarings left, of which a batch asks for no more than its size. -/
def requested (l : Loop σ) (done : Nat) : Nat :=
  match l.bound with
  | some bound => min (bound - done) l.batchSize
  | none => l.batchSize

/-- Whether there are squarings left. -/
def hasRoom (l : Loop σ) (done : Nat) : Bool :=
  match l.bound with
  | some bound => done < bound
  | none => true

/-- Whether the forms of a batch can be those of successive squares. -/
def accepts (l : Loop σ) (forms : List Form) (requested : Nat) : Bool :=
  !forms.isEmpty && forms.length ≤ requested &&
    forms.all fun f => f.isReduced && f.discriminant == l.discriminant.value

/-- Makes `f` the form come to. -/
def deliver (l : Loop σ) (e : Engine σ) (f : Form) : Engine σ :=
  let iteration := e.done + 1
  let listening := l.listener.deliver e.listening f iteration
  { e with listening, form := f, done := iteration
           stopRaised := e.stopRaised || l.listener.stops listening }

/-- Makes one squaring of the loop's own. -/
def square (l : Loop σ) (e : Engine σ) : Engine σ :=
  l.deliver { e with slowIterations := e.slowIterations + 1 } (e.form.square l.discriminant)

/-- Takes the answer of the fast path. -/
def receive (l : Loop σ) (e : Engine σ) (requested : Nat) (reply : Reply) : Engine σ :=
  let e := { e with attempts := e.attempts + 1, phase := .boundary
                    stopRaised := e.stopRaised || reply.stop }
  match reply.outcome with
  | .unavailable => l.square e
  | .corrupted => l.square { e with corruptedBatches := e.corruptedBatches + 1 }
  | .completed forms =>
    if l.accepts forms requested then
      { e with fastBatches := e.fastBatches + 1
               phase := .handing forms (forms.length < requested) }
    else l.square { e with corruptedBatches := e.corruptedBatches + 1 }

/-- Asks the listener at the end of a batch. -/
def consult (l : Loop σ) (e : Engine σ) : Engine σ :=
  let (listening, answer) := l.listener.boundary e.listening e.done e.progress.count
  let e := { e with listening, stopRaised := e.stopRaised || l.listener.stops listening }
  match answer with
  | .proceed => { e with phase := .publishing false }
  | .halt => { e with halted := true, phase := .publishing true }
  | .alignTo step => { e with phase := .aligning step }

/-- Tells the listener of a multiple reached. -/
def announce (l : Loop σ) (e : Engine σ) : Engine σ :=
  let listening := l.listener.aligned e.listening e.done
  { e with listening, stopRaised := e.stopRaised || l.listener.stops listening }

/-- **One step** of the loop; `none` when it has ended or waits for an
answer. -/
def step? (l : Loop σ) (e : Engine σ) : Option (Engine σ) :=
  match e.phase with
  | .ready =>
    if e.stopRaised then some { e with stopped := true, phase := .publishing true }
    else if l.hasRoom e.done then some { e with phase := .asked (l.requested e.done) }
    else some { e with phase := .publishing true }
  | .asked requested =>
    (l.accelerator e.attempts e.form e.done requested).map (l.receive e requested)
  | .handing [] short =>
    let e := { e with phase := .boundary }
    if short && l.hasRoom e.done && !e.stopRaised then some (l.square e) else some e
  | .handing (f :: rest) short =>
    if e.stopRaised then some { e with phase := .handing [] short }
    else
      some (l.deliver { e with fastIterations := e.fastIterations + 1
                               phase := .handing rest short } f)
  | .boundary => some (l.consult e)
  | .aligning step =>
    if step = 0 then some { e with phase := .publishing false }
    else if e.done % step = 0 then some (l.announce { e with phase := .publishing false })
    else if l.hasRoom e.done && !e.stopRaised then some (l.square e)
    else some { e with phase := .publishing false }
  | .publishing last =>
    some { e with progress := e.progress.publish e.done
                  phase := if last then .closing else .ready }
  | .closing => some { e with progress := e.progress.close, phase := .ended }
  | .ended => none

/-- Makes at most `fuel` steps, none once it is enough. -/
def advance (l : Loop σ) (enough : Engine σ → Bool) : (fuel : Nat) → Engine σ → Engine σ
  | 0, e => e
  | fuel + 1, e =>
    if enough e then e
    else
      match l.step? e with
      | none => e
      | some e => l.advance enough fuel e

/-- Steps that a run cannot take more of. Every form comes with fewer than
eight, and a run without bound counts in words. -/
def fuel (l : Loop σ) : Nat := 8 * l.bound.getD (wordCount) + 16

/-- **Runs** until the end, or until there is no answer. -/
def run (l : Loop σ) (e : Engine σ) : Engine σ := l.advance (fun _ => false) l.fuel e

/-- Runs until `target` squarings are published, if they ever are. -/
def runTo (l : Loop σ) (target : Nat) (e : Engine σ) : Engine σ :=
  l.advance (fun e => target ≤ e.progress.count) l.fuel e

end Loop

end VerifiableDelay
