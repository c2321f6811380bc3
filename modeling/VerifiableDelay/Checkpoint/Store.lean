import Std.Data.TreeMap
import VerifiableDelay.Error
import VerifiableDelay.Form.Basic
/-!
# The store of checkpoints

A fixed number of slots, each empty until a form is put into it.
-/

namespace VerifiableDelay

/-- Slots for forms. -/
structure Store where
  capacity : Nat
  slots : Std.TreeMap Nat Form := ∅

namespace Store

/-- The form in a slot. -/
def get? (s : Store) (slot : Nat) : Option Form := s.slots[slot]?

/-- Puts a form into a slot, over whatever was there. -/
def set (s : Store) (slot : Nat) (f : Form) : Except DelayError Store :=
  if slot < s.capacity then .ok { s with slots := s.slots.insert slot f }
  else .error (.noSlot slot)

@[simp] theorem get?_empty (capacity slot : Nat) : get? { capacity } slot = none := by
  simp [get?]

/-- A slot that there is takes a form. -/
theorem exists_set {s : Store} {slot : Nat} (h : slot < s.capacity) (f : Form) :
    ∃ t, s.set slot f = .ok t := ⟨_, if_pos h⟩

/-- And none takes one that there is not. -/
theorem lt_of_set {s t : Store} {slot : Nat} {f : Form} (h : s.set slot f = .ok t) :
    slot < s.capacity := by
  unfold set at h
  split at h
  · assumption
  · cases h

/-- What is put into a slot is there, and the other slots are as before. -/
theorem get?_of_set {s t : Store} {slot : Nat} {f : Form} (h : s.set slot f = .ok t)
    (other : Nat) : t.get? other = if slot = other then some f else s.get? other := by
  unfold set at h
  split at h
  · cases h
    simp [get?, Std.TreeMap.getElem?_insert]
  · cases h

/-- Storing keeps the number of slots. -/
theorem capacity_of_set {s t : Store} {slot : Nat} {f : Form} (h : s.set slot f = .ok t) :
    t.capacity = s.capacity := by
  unfold set at h
  split at h <;> cases h
  rfl

end Store

end VerifiableDelay
