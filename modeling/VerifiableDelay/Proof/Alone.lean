import VerifiableDelay.Form.Codec
import VerifiableDelay.Proof.Power
/-!
# Squaring and proving in one go

The plainest prover makes the squarings itself, keeps the checkpoints it
will need in an array, and proves the whole as one segment.
-/

namespace VerifiableDelay

namespace Alone

/-- Squares `f` `count` times from iteration `i` on, and collects the forms
on the stride. -/
def squareFrom (d : Discriminant) (stride : Nat) :
    (count i : Nat) → (f : Form) → Array Form → Array Form × Form
  | 0, _, f, kept => (kept, f)
  | count + 1, i, f, kept =>
    let kept := if i % stride = 0 then kept.push f else kept
    squareFrom d stride count (i + 1) (f.square d) kept

/-- **The checkpoints** of `iterations` squarings of `x`, and the last form. -/
def square (d : Discriminant) (x : Form) (iterations stride : Nat) : Array Form × Form :=
  squareFrom d stride iterations 0 x.reduced #[]

/-- Checkpoints in an array, by their numbers. -/
def checkpoints (kept : Array Form) : Checkpoints := fun i =>
  match kept[i]? with
  | some f => .ok f
  | none => .error (.noSlot i)

/-- The last form and the proof, encoded, with the quotient cut into digits
as given. -/
def proveWith (d : Discriminant) (x : Form) (iterations : Nat) (parameters : Parameters) :
    Except DelayError (List UInt8) := do
  let (kept, y) := square d x iterations parameters.stride
  let proof ← Power.prove d x y (checkpoints kept) iterations parameters false
  return (← ofFormResult (y.encode d)) ++ (← ofFormResult (proof.encode d))

/-- **The last form and the proof**, encoded, with digits that suit the
length of the run. -/
def prove (d : Discriminant) (x : Form) (iterations : Nat) : Except DelayError (List UInt8) :=
  proveWith d x iterations (Parameters.approximate iterations)

end Alone

end VerifiableDelay
