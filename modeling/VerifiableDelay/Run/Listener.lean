import VerifiableDelay.Form.Basic
/-!
# Listening to a run

The squaring loop hands every form it comes to, in order, to a listener, and
at the end of a batch asks it what to do. A listener is a state and what
each call does to it. It may also want the run stopped, which the loop looks
for between any two squarings.
-/

namespace VerifiableDelay

/-- What the loop is to do at the end of a batch. -/
inductive Boundary where
  | proceed
  /-- To square on to a multiple of `step`, and say so. -/
  | alignTo (step : Nat)
  | halt
  deriving Repr, DecidableEq

/-- What the calls of the loop do to a state. -/
structure Listener (σ : Type) where
  /-- The form after this many squarings. -/
  deliver : σ → Form → (iteration : Nat) → σ
  /-- A batch has ended, with `published` the count known outside. -/
  boundary : σ → (done published : Nat) → σ × Boundary
  /-- A multiple asked for has been reached. -/
  aligned : σ → (done : Nat) → σ := fun s _ => s
  /-- Whether the run is to be stopped. -/
  stops : σ → Bool := fun _ => false

/-- Hears nothing and lets the loop go on. -/
def Listener.silent : Listener Unit where
  deliver _ _ _ := ()
  boundary _ _ _ := ((), .proceed)

end VerifiableDelay
