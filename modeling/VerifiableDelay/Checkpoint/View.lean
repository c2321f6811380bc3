import VerifiableDelay.Checkpoint.Layout
import VerifiableDelay.Checkpoint.Store
/-!
# A segment's checkpoints

What a prover reads of the store: the forms of a segment on its stride. In a
rolling window the slots of a segment are used again, so a view may carry
the progress from which that can have happened. The form is taken from its
slot first and the progress looked at after, so a form that is handed out
was read before its slot was used again.
-/

namespace VerifiableDelay

/-- The checkpoints of one segment. -/
structure View where
  store : Store
  layout : Layout
  /-- Iteration the segment begins at. -/
  start : Nat
  /-- Iterations from one checkpoint to the next. -/
  stride : Nat
  level : Nat
  /-- Progress from which the slots may have been used again. -/
  limit : Option Nat := none

namespace View

/-- **Checkpoint `i`** of the segment, if the progress seen after reading it
is `progress`. -/
def read (v : View) (progress i : Nat) : Except DelayError Form := do
  let iteration := v.start + i * v.stride
  let slot ← v.layout.slot iteration v.level
  match v.store.get? slot with
  | none => .error (.missing iteration)
  | some f =>
    if v.limit.any (· ≤ progress) then .error (.lapped iteration) else .ok f

/-- What is read is in its slot, and that cannot have been used again. -/
theorem read_eq_ok_iff {v : View} {progress i : Nat} {f : Form} :
    v.read progress i = .ok f ↔ v.limit.any (· ≤ progress) = false ∧
      ∃ slot, v.layout.slot? (v.start + i * v.stride) v.level = some slot ∧
        v.store.get? slot = some f := by
  simp only [read, bind_eq_ok_iff, Layout.slot_eq_ok_iff]
  constructor
  · rintro ⟨slot, hslot, h⟩
    split at h
    · cases h
    · rename_i g hg
      split at h
      · cases h
      · rename_i hlimit
        cases h
        exact ⟨by simpa using hlimit, slot, hslot, hg⟩
  · rintro ⟨hlimit, slot, hslot, hget⟩
    refine ⟨slot, hslot, ?_⟩
    simp [hget, hlimit]

/-- From the limit on nothing is handed out, whatever the slot holds. -/
theorem read_eq_lapped {v : View} {progress i slot : Nat} {f : Form}
    (hlimit : v.limit.any (· ≤ progress) = true)
    (hslot : v.layout.slot? (v.start + i * v.stride) v.level = some slot)
    (hf : v.store.get? slot = some f) :
    v.read progress i = .error (.lapped (v.start + i * v.stride)) := by
  simp only [read, Layout.slot_eq_ok_iff.2 hslot, bind, Except.bind, hf, hlimit, if_true]

/-- **There are three reasons for reading nothing**: no slot, nothing in it, and
the limit. -/
theorem error_cases_of_read {v : View} {progress i : Nat} {error : DelayError}
    (h : v.read progress i = .error error) :
    v.layout.slot? (v.start + i * v.stride) v.level = none ∧
        error = .noSlot (v.start + i * v.stride) ∨
      error = .missing (v.start + i * v.stride) ∨
      error = .lapped (v.start + i * v.stride) ∧ v.limit.any (· ≤ progress) = true := by
  rcases bind_eq_error_iff.1 h with hslot | ⟨slot, -, hrest⟩
  · rw [Layout.slot] at hslot
    split at hslot
    · cases hslot
    · rename_i hnone
      cases hslot
      exact .inl ⟨hnone, rfl⟩
  · split at hrest
    · cases hrest
      exact .inr (.inl rfl)
    · split at hrest
      · rename_i hlimit
        cases hrest
        exact .inr (.inr ⟨rfl, hlimit⟩)
      · cases hrest

end View

end VerifiableDelay
