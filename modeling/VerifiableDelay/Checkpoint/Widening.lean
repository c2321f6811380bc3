import VerifiableDelay.Integer.Size
/-!
# A stride that widens once

A run of unknown length keeps a checkpoint every ten iterations, until at
some point it changes to every hundred. Before the change a checkpoint's
slot is a tenth of its iteration. From the change on slots go up by one per
hundred iterations, and begin where the old rule would have put the point
of change, so that no slot moves.
-/

namespace VerifiableDelay

/-- Where checkpoints go when the stride widens. -/
structure Widening where
  capacity : Nat
  /-- From where on the stride is a hundred. -/
  switch : Option Nat := none
  deriving Repr, DecidableEq

namespace Widening

/-- Room for a stride of ten up to one iteration and of a hundred from there
up to the other. -/
def ofLimits (switchLimit limit : Nat) : Widening where
  capacity := switchLimit / 10 + (limit - switchLimit) / 100

/-- Widens the stride from `point` on. The last number of a word stands for
no point at all. -/
def widen (w : Widening) (point : Nat) : Widening :=
  { w with switch := if point = wordCount - 1 then none else some point }

/-- Whether `iteration` is past the change, and by how much. -/
def past? (w : Widening) (iteration : Nat) : Option Nat :=
  match w.switch with
  | some point => if point ≤ iteration then some (iteration - point) else none
  | none => none

/-- The stride at `iteration`. -/
def strideAt (w : Widening) (iteration : Nat) : Nat :=
  if (w.past? iteration).isSome then 100 else 10

/-- The slot that the stride gives, whether or not there is one. -/
def slotOnStride? (w : Widening) (iteration : Nat) : Option Nat :=
  match w.switch, w.past? iteration with
  | some point, some past => if past % 100 = 0 then some (point / 10 + past / 100) else none
  | _, _ => if iteration % 10 = 0 then some (iteration / 10) else none

/-- **The slot** of a checkpoint on the stride. -/
def slot? (w : Widening) (iteration : Nat) : Option Nat :=
  (w.slotOnStride? iteration).filter (· < w.capacity)

end Widening

end VerifiableDelay
