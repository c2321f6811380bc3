import VerifiableDelay.Error
/-!
# Progress

The number of squarings that provers may rely on. The loop publishes it
after the checkpoints of a batch are stored, and closes it at its end.
-/

namespace VerifiableDelay

/-- What is known of a run from outside. -/
structure Progress where
  count : Nat := 0
  closed : Bool := false
  deriving Repr, DecidableEq

namespace Progress

/-- Publishes a count. -/
def publish (p : Progress) (count : Nat) : Progress := { p with count }

/-- Says that nothing follows. -/
def close (p : Progress) : Progress := { p with closed := true }

/-- **What a wait for `target` ends with** when nothing more is published:
the count, if it is enough. Of the reasons to give up, being stopped comes
before the end of the run, and that before a count that does not move. -/
def await (p : Progress) (target : Nat) (stopped : Bool) : Except DelayError Nat :=
  if target ≤ p.count then .ok p.count
  else if stopped then .error .stopped
  else if p.closed then .error (.ended p.count)
  else .error (.stalled p.count target)

/-- A wait gives the count exactly if that is enough. -/
theorem await_eq_ok_iff (p : Progress) (target : Nat) (stopped : Bool) (n : Nat) :
    p.await target stopped = .ok n ↔ target ≤ p.count ∧ n = p.count := by
  unfold await
  split
  · simp_all [eq_comm]
  · have h : ¬ target ≤ p.count := by assumption
    repeat' split
    all_goals simp [h]

end Progress

end VerifiableDelay
