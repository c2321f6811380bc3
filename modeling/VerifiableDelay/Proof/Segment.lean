import VerifiableDelay.Form.Basic
/-!
# Proven segments
-/

namespace VerifiableDelay

/-- A stretch of a run with the proof that its squarings lead from `x` to
`y`. -/
structure Segment where
  /-- Squarings before it. -/
  start : Nat
  /-- Squarings of it. -/
  length : Nat
  x : Form
  y : Form
  proof : Form
  deriving DecidableEq

end VerifiableDelay
