import VerifiableDelay.Proof.Alone
import VerifiableDelay.Proof.Whole
import VerifiableDelay.Recorder.Rolling
/-!
# A run proven segment by segment

The segments of every level are proven as the run completes them. A request
takes the fewest that cover it and chains them, with a last stretch that is
shorter than any segment and squared again. A segment whose checkpoints the
window has passed over is replaced by the four that it is made of, on the
level below.
-/

namespace VerifiableDelay

namespace Segmented

/-- A segment of a level, by its number there. -/
structure Piece where
  level : Nat
  index : Nat
  deriving Repr, DecidableEq

/-- Starts a run that is recorded for proofs of its segments. -/
def start (o : Overflow) (s : Settings) (d : Discriminant) (x : Form) (accelerator : Accelerator)
    (bound : Option Nat) : Except DelayError (Run RollingRecorder) := do
  Run.start o s d x RollingRecorder.listener (← RollingRecorder.start o s x) accelerator bound

/-- The segments of a level that end by `aligned`, in a row from `position` on,
and where the row ends. Whether there is room for one more is told by the sum
of a position and a length. Where this leaves its word there is no row: a build
that checks its sums stops, and in one that does not the sum comes round to the
start, which is always by `aligned`, and the row never ends. -/
def row (layout : Rolling) (aligned level position : Nat) : Except DelayError (List Piece × Nat) :=
  let length := layout.segmentLength level
  if wordCount ≤ position + length then .error .overflow
  else if position + length ≤ aligned then do
    let (rest, last) ← row layout aligned level (position + length)
    return (⟨level, position / length⟩ :: rest, last)
  else .ok ([], position)
termination_by aligned - position
decreasing_by
  have := layout.segmentLength_pos level
  omega

/-- The segments of the levels below `levels` that cover `aligned` squarings
from `position` on, the longest first. -/
def planFrom (layout : Rolling) (aligned : Nat) :
    (levels position : Nat) → Except DelayError (List Piece)
  | 0, _ => .ok []
  | level + 1, position => do
    let (pieces, next) ← row layout aligned level position
    return pieces ++ (← planFrom layout aligned level next)

/-- **The fewest segments** that cover `aligned` squarings. -/
def plan (layout : Rolling) (aligned : Nat) : Except DelayError (List Piece) :=
  planFrom layout aligned layout.levels 0

/-- The form after `iteration` squarings, an end of shortest segments. -/
def endAt (r : RollingRecorder) (iteration : Nat) : Except DelayError Form :=
  match r.end? (iteration / r.layout.segmentLength 0) with
  | some f => .ok f
  | none => .error (.missing iteration)

/-- Progress from which the slots of a segment may have been used again: the
loop is a batch at most past what it has published. -/
def limit (o : Overflow) (layout : Rolling) (batchSize : Nat) (p : Piece) :
    Except DelayError Nat := do
  return (← o.word ((p.index + layout.window) * layout.segmentLength p.level)) - batchSize

/-- The checkpoints of a segment, while the progress is below a limit. -/
def view (r : RollingRecorder) (limit : Nat) (p : Piece) : View where
  store := r.archive.store
  layout := .rolling r.layout
  start := p.index * r.layout.segmentLength p.level
  stride := (Parameters.ofLevel p.level).stride
  level := p.level
  limit := some limit

/-- The checkpoints of a segment, each taken from its slot before the
progress is looked at. -/
def checkpoints (limit : Nat) (k : Look RollingRecorder) (p : Piece) : Checkpoints := fun i =>
  (view (k.taken i).listening limit p).read (k.seen i).progress.count i

/-- Proves a segment, if its slots cannot have been used again. -/
def segmentAt (o : Overflow) (d : Discriminant) (batchSize : Nat) (k : Look RollingRecorder)
    (p : Piece) : Except DelayError Segment := do
  let layout := k.opened.listening.layout
  let length := layout.segmentLength p.level
  let start := p.index * length
  let x ← endAt k.opened.listening start
  let y ← endAt k.ended.listening (start + length)
  let limit ← limit o layout batchSize p
  if limit ≤ k.checked.progress.count then .error (.lapped start)
  else
    let proof ← Power.prove d x y (checkpoints limit k p) length (Parameters.ofLevel p.level) false
    return { start, length, x, y, proof }

/-- A segment, or the segments it is made of on the first level below where
none of them is lost. -/
def resolve (outcome : Piece → Except DelayError Segment) :
    (level index : Nat) → Except DelayError (List Segment)
  | 0, index => do return [← outcome ⟨0, index⟩]
  | level + 1, index =>
    match outcome ⟨level + 1, index⟩ with
    | .ok s => .ok [s]
    | .error (.lapped _) => do
      let first ← resolve outcome level (4 * index)
      let second ← resolve outcome level (4 * index + 1)
      let third ← resolve outcome level (4 * index + 2)
      let fourth ← resolve outcome level (4 * index + 3)
      return first ++ second ++ third ++ fourth
    | .error e => .error e

/-- The segments of a plan. -/
def resolveAll (outcome : Piece → Except DelayError Segment) :
    List Piece → Except DelayError (List Segment)
  | [] => .ok []
  | p :: rest => do
    let these ← resolve outcome p.level p.index
    return these ++ (← resolveAll outcome rest)

/-- The last stretch, squared again from the end of segments before it. -/
def lastStretch (r : Run RollingRecorder) (start length : Nat) : Except DelayError Segment := do
  let x ← endAt r.listening start
  let parameters := Parameters.ofLevel 0
  let (kept, y) := Alone.square r.discriminant x length parameters.stride
  let proof ← Power.prove r.discriminant x y (Alone.checkpoints kept) length parameters false
  return { start, length, x, y, proof }

/-- **Chains** the first `iterations` squarings of a run from what became of
its segments. -/
def proveFrom (r : Run RollingRecorder) (outcome : Piece → Except DelayError Segment)
    (iterations : Nat) : Except DelayError Proof := do
  let layout := r.listening.layout
  let aligned := roundDown iterations (layout.segmentLength 0)
  let plan ← plan layout aligned
  let rest := iterations - aligned
  let count := plan.length + if rest = 0 ∧ plan ≠ [] then 0 else 1
  if Chain.maxDepth + 1 < count then .error (.segmentCount count)
  else
    let _ ← r.await aligned
    let segments ← resolveAll outcome plan
    let stretch ← if rest = 0 ∧ segments ≠ [] then pure [] else do
      pure [← lastStretch r aligned rest]
    Chain.encode r.discriminant (segments ++ stretch)

/-- What a request finds of a segment: its proof as of now, unless the run is
stopped, for then nobody waits until a segment is proven. -/
def found (o : Overflow) (r : Run RollingRecorder) (p : Piece) : Except DelayError Segment :=
  if r.engine.stopRaised then .error .stopped
  else segmentAt o r.discriminant r.settings.batchSize (.at r.engine) p

/-- **Proves** the first `iterations` squarings of a run, its segments being
proven as it is now. -/
def prove (o : Overflow) (r : Run RollingRecorder) (iterations : Nat) : Except DelayError Proof :=
  proveFrom r (found o r) iterations

end Segmented

end VerifiableDelay
