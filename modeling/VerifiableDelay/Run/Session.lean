import VerifiableDelay.Run.Engine
import VerifiableDelay.Settings
/-!
# A run under way

What provers hold of a run: its settings, the form it started from, and the
loop at the step it has come to.
-/

namespace VerifiableDelay

/-- What a wait for `target` ends with in a state that goes no further. -/
def Engine.await {σ : Type} (e : Engine σ) (target : Nat) : Except DelayError Nat :=
  e.progress.await target e.stopRaised

/-- **When a prover looks at a run** on its way through a segment, while the
run goes on. -/
structure Look (σ : Type) where
  /-- When it begins: where the segment starts is there, or its end is waited
  for. -/
  opened : Engine σ
  /-- When it takes the form the segment ends at. -/
  ended : Engine σ
  /-- When it makes sure that there is a point in going on. -/
  checked : Engine σ
  /-- When it takes checkpoint `i` from its slot. -/
  taken : (i : Nat) → Engine σ
  /-- When it looks at the progress after that. -/
  seen : (i : Nat) → Engine σ

/-- All at one moment. -/
def Look.at {σ : Type} (e : Engine σ) : Look σ where
  opened := e
  ended := e
  checked := e
  taken _ := e
  seen _ := e

/-- A run under way. -/
structure Run (σ : Type) where
  settings : Settings
  /-- The reduced form it started from. -/
  x : Form
  loop : Loop σ
  engine : Engine σ

namespace Run

variable {σ : Type}

/-- Starts squaring `x`, for `bound` squarings or until stopped. -/
def start (o : Overflow) (s : Settings) (d : Discriminant) (x : Form) (listener : Listener σ)
    (listening : σ) (accelerator : Accelerator) (bound : Option Nat) :
    Except DelayError (Run σ) := do
  s.validate o
  let x := x.reduced
  return { settings := s, x
           loop := { discriminant := d, listener, accelerator, batchSize := s.batchSize, bound }
           engine := Loop.start x listening false }

/-- The discriminant of all its forms. -/
def discriminant (r : Run σ) : Discriminant := r.loop.discriminant

/-- What the listener has made of the run so far. -/
def listening (r : Run σ) : σ := r.engine.listening

/-- Raises the stop flag. -/
def stop (r : Run σ) : Run σ := { r with engine := r.engine.stop }

/-- Lets the loop go on to its end, or to where it waits for an answer. -/
def finish (r : Run σ) : Run σ := { r with engine := r.loop.run r.engine }

/-- Lets the loop go on as far as it gets while someone waits, which without
any patience is nowhere. -/
def attend (r : Run σ) : Run σ := if r.settings.stallTimeout = 0 then r else r.finish

/-- Lets the loop go on until `target` squarings are published, if someone
waits for them. -/
def reach (r : Run σ) (target : Nat) : Run σ :=
  if r.settings.stallTimeout = 0 then r else { r with engine := r.loop.runTo target r.engine }

/-- What a wait for `target` ends with if the loop gets no further. -/
def await (r : Run σ) (target : Nat) : Except DelayError Nat := r.engine.await target

end Run

end VerifiableDelay
