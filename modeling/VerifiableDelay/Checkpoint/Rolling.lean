import VerifiableDelay.Overflow
import VerifiableDelay.Quotient.Parameters
/-!
# Rolling windows of segments

A run is cut into segments on several levels at once, four of one level to
one of the next, and each level keeps the checkpoints of its last few
segments. A segment therefore reuses the slots of the one a window before
it, and no others: levels have slots of their own, and so have the segments
of a window and the checkpoints of a segment. This is so as long as the slots
can be counted in a word (`Rolling.Fits`). Where they cannot, a build that
checks its sums has no layout, and in one that does not the number of a slot
is what is left of it in the word.
-/

namespace VerifiableDelay

-- powers of natural numbers are those of the core library
attribute [local instance (high)] instPowNat

/-- Where checkpoints go when every level keeps a window of segments. -/
structure Rolling where
  /-- Segments of level `0` have `2 ^ baseBits` iterations. -/
  baseBits : Nat
  /-- Segments kept of each level. -/
  window : Nat
  levels : Nat
  baseBits_halfWord : isHalfWord baseBits := by exact Eq.refl true
  window_word : isWord window := by exact Eq.refl true
  levels_word : isWord levels := by exact Eq.refl true
  deriving Repr

namespace Rolling

/-- Iterations between two checkpoints of a level: the stride of the proofs
that are made from them. -/
def stride (level : Nat) : Nat := (Parameters.ofLevel level).stride

/-- Iterations of a segment. -/
def segmentLength (r : Rolling) (level : Nat) : Nat := 2 ^ (r.baseBits + 2 * level)

/-- Slots of a segment. -/
def slots (r : Rolling) (level : Nat) : Nat := r.segmentLength level / stride level + 1

/-- Slots of the levels below. -/
def slotsBelow (r : Rolling) : (level : Nat) → Nat
  | 0 => 0
  | level + 1 => r.slotsBelow level + r.slots level * r.window

/-- **The slots of all levels are counted in a word.** So are those of each,
and the sums on the way. -/
def Fits (r : Rolling) : Prop := r.slotsBelow r.levels < wordCount

instance (r : Rolling) : Decidable r.Fits := inferInstanceAs (Decidable (_ < _))

/-- Slots there are. -/
def totalSlots (r : Rolling) : Nat := r.slotsBelow r.levels % wordCount

/-- Whether the level has a checkpoint of this iteration. -/
def IsStored (r : Rolling) (iteration level : Nat) : Prop :=
  iteration % r.segmentLength level % stride level = 0

instance (r : Rolling) (iteration level : Nat) : Decidable (r.IsStored iteration level) :=
  inferInstanceAs (Decidable (_ = _))

/-- The slot of a checkpoint among those of its level. -/
def slotOfLevel (r : Rolling) (iteration level : Nat) : Nat :=
  iteration / r.segmentLength level % r.window * r.slots level +
    iteration % r.segmentLength level / stride level

/-- **The slot** of a level's checkpoint. -/
def slot? (r : Rolling) (iteration level : Nat) : Option Nat :=
  if level < r.levels ∧ r.IsStored iteration level then
    some ((r.slotsBelow level + r.slotOfLevel iteration level) % wordCount)
  else none

theorem stride_pos (level : Nat) : 0 < stride level := Parameters.stride_pos _

theorem segmentLength_pos (r : Rolling) (level : Nat) : 0 < r.segmentLength level :=
  Nat.pow_pos (by decide)

/-- Four segments make one of the next level. -/
theorem segmentLength_succ (r : Rolling) (level : Nat) :
    r.segmentLength (level + 1) = 4 * r.segmentLength level := by
  have h : r.baseBits + 2 * (level + 1) = r.baseBits + 2 * level + 2 := by omega
  rw [segmentLength, segmentLength, h, Nat.pow_add, Nat.mul_comm]

end Rolling

end VerifiableDelay
