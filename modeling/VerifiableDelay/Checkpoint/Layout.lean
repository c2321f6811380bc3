import VerifiableDelay.Checkpoint.Rolling
import VerifiableDelay.Checkpoint.Widening
/-!
# Where checkpoints go

A layout gives the checkpoint of an iteration its slot in the store. There
is one for each way of proving a run: a uniform stride for a run proven in
one piece, a stride that widens for one of unknown length, and rolling
windows for one proven segment by segment.
-/

namespace VerifiableDelay

/-- A rule for the slots of checkpoints. -/
inductive Layout where
  | uniform (stride capacity : Nat)
  | rolling (r : Rolling)
  | widening (w : Widening)
  deriving Repr

namespace Layout

/-- A uniform stride over a run of the given length, with some room to
spare. -/
def ofRun (stride iterations : Nat) : Layout := .uniform stride (iterations / stride + 100)

/-- Slots the store needs. -/
def capacity : Layout → Nat
  | .uniform _ capacity => capacity
  | .rolling r => r.totalSlots
  | .widening w => w.capacity

/-- The slot of a checkpoint, if it has one. Layouts without levels have
only level `0`. -/
def slot? (l : Layout) (iteration level : Nat) : Option Nat :=
  match l with
  | .uniform stride capacity =>
    if level = 0 ∧ iteration % stride = 0 ∧ iteration / stride < capacity then
      some (iteration / stride)
    else none
  | .rolling r => r.slot? iteration level
  | .widening w => if level = 0 then w.slot? iteration else none

/-- **The slot** of a checkpoint. -/
def slot (l : Layout) (iteration level : Nat) : Except DelayError Nat :=
  match l.slot? iteration level with
  | some slot => .ok slot
  | none => .error (.noSlot iteration)

/-- **A uniform stride has a slot for each of its multiples**, up to the
length of the run. -/
theorem slot?_ofRun {stride iterations k : Nat} (hstride : 0 < stride)
    (hk : stride * k ≤ iterations) : (ofRun stride iterations).slot? (stride * k) 0 = some k := by
  have hle : k ≤ iterations / stride := (Nat.le_div_iff_mul_le hstride).2 (Nat.mul_comm k stride ▸ hk)
  have hdiv : stride * k / stride = k := Nat.mul_div_cancel_left k hstride
  rw [ofRun, slot?, if_pos ⟨rfl, Nat.mul_mod_right stride k, by omega⟩, hdiv]

theorem slot_eq_ok_iff {l : Layout} {iteration level slot : Nat} :
    l.slot iteration level = .ok slot ↔ l.slot? iteration level = some slot := by
  unfold Layout.slot
  split <;> simp_all

end Layout

end VerifiableDelay
