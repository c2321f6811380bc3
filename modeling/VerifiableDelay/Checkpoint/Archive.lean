import VerifiableDelay.Checkpoint.Store
/-!
# Keeping checkpoints

A recorder cannot refuse a form that has no place in its store. It notes
instead that the store is full, and asks the loop to halt at the next
boundary.
-/

namespace VerifiableDelay

/-- A store, and whether something did not go into it. -/
structure Archive where
  store : Store
  full : Bool := false

namespace Archive

/-- Puts a form into a slot, if there is one. -/
def keep (a : Archive) (slot? : Option Nat) (f : Form) : Archive :=
  match slot? with
  | none => { a with full := true }
  | some slot =>
    match a.store.set slot f with
    | .ok store => { a with store }
    | .error _ => { a with full := true }

/-- What is kept is in its slot, and the other slots are as before. -/
theorem get?_keep {a : Archive} {slot? : Option Nat} (f : Form)
    (h : ∀ slot, slot? = some slot → slot < a.store.capacity) (other : Nat) :
    (a.keep slot? f).store.get? other = if slot? = some other then some f
      else a.store.get? other := by
  cases slot? with
  | none => simp [keep]
  | some slot =>
    obtain ⟨t, ht⟩ := Store.exists_set (h slot rfl) f
    simp [keep, ht, Store.get?_of_set ht]

theorem capacity_keep (a : Archive) (slot? : Option Nat) (f : Form) :
    (a.keep slot? f).store.capacity = a.store.capacity := by
  unfold keep
  split
  · rfl
  · split
    · rename_i h
      exact Store.capacity_of_set h
    · rfl

/-- A store is full once a form has no slot, and stays so. -/
theorem full_keep {a : Archive} {slot? : Option Nat} (f : Form)
    (h : ∀ slot, slot? = some slot → slot < a.store.capacity) :
    (a.keep slot? f).full = (a.full || slot?.isNone) := by
  cases slot? with
  | none => simp [keep]
  | some slot =>
    obtain ⟨t, ht⟩ := Store.exists_set (h slot rfl) f
    simp [keep, ht]

end Archive

end VerifiableDelay
