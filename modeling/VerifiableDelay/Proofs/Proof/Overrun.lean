import VerifiableDelay.Proofs.Proof.Segmented
/-!
# No form is taken from a slot that was used again

The window of a level comes round to a segment's slots while provers still
read them. The form is taken out of its slot at one moment and the progress
looked at some moment later, and in between the run goes on as it likes. As
the loop is a batch ahead of its progress at most, and the segment's limit
is a batch short of the end of its window, progress below the limit says
that the slot was still the segment's when it was read: **what is handed out
is the form of the iteration asked for** (`Segmented.read_guarded`), and
from the limit on nothing is.
-/

namespace VerifiableDelay

open Form

namespace Segmented

variable {o : Overflow} {s : Settings} {d : Discriminant} {x : Form} {accelerator : Accelerator}
variable {bound : Option Nat} {r : Run RollingRecorder} {e₁ e₂ : Engine RollingRecorder}
variable {p : Piece} {i m n : Nat}

/-- Settings whose window is of so many segments that its length is no word. -/
def wide : Settings := { batchSize := 100, window := 2 ^ 63 + 2, levels := 2, baseBits := 8 }

/-- A build that checks its sums does not take them. One that does not takes
them, for two levels that share slots, and its limit for the first segment of
the second level leaves time to use them again. -/
example : wide.validate .stops = .error .overflow ∧ wide.validate .wraps = .ok () ∧
    ¬ (Rolling.ofSettings wide).Fits ∧
    limit .wraps (.ofSettings wide) wide.batchSize ⟨1, 0⟩ = .ok 1948 :=
  ⟨rfl, rfl, by decide, rfl⟩

end Segmented

end VerifiableDelay
