import VerifiableDelay.Checkpoint.Widening
/-!
# The slots of a stride that widens

If the stride widens at a multiple of a hundred, **no two iterations have
one slot** (`Widening.eq_of_slot?_eq`). Widening it changes neither the slot
of an iteration up to the point of change (`Widening.slot?_widen`) nor
whether it is on the stride (`Widening.onStride_widen`), and it leaves a slot
what it was for, for whatever a later slot is still to be used for as well
(`Widening.exists_slot?_of_widen`).
-/

namespace VerifiableDelay

namespace Widening

variable {w : Widening} {i j n point slot : Nat}

theorem slot?_eq_some_iff_of_none (h : w.switch = none) :
    w.slot? i = some slot ↔ i % 10 = 0 ∧ slot = i / 10 ∧ slot < w.capacity := by
  rw [slot?, Option.filter_eq_some_iff, slotOnStride?, h]
  simp only [decide_eq_true_eq]
  split
  · rename_i hmod
    rw [Option.some_inj]
    omega
  · rename_i hmod
    simp [hmod]

theorem slot?_eq_some_iff_of_some (h : w.switch = some point) :
    w.slot? i = some slot ↔ slot < w.capacity ∧
      (i < point ∧ i % 10 = 0 ∧ slot = i / 10 ∨
        point ≤ i ∧ (i - point) % 100 = 0 ∧ slot = point / 10 + (i - point) / 100) := by
  rw [slot?, Option.filter_eq_some_iff, slotOnStride?, past?, h]
  simp only [decide_eq_true_eq]
  by_cases hpast : point ≤ i
  · rw [if_pos hpast]
    simp only
    split
    · rename_i hmod
      rw [Option.some_inj]
      omega
    · rename_i hmod
      simp only [reduceCtorEq, false_and, false_iff]
      omega
  · rw [if_neg hpast]
    simp only
    split
    · rename_i hmod
      rw [Option.some_inj]
      omega
    · rename_i hmod
      simp only [reduceCtorEq, false_and, false_iff]
      omega

/-- The stride widens at a multiple of a hundred, if it does. -/
def Aligned (w : Widening) : Prop := ∀ point, w.switch = some point → point % 100 = 0

/-- **No two iterations have one slot.** -/
theorem eq_of_slot?_eq (h : w.Aligned) (hi : w.slot? i = some slot) (hj : w.slot? j = some slot) :
    i = j := by
  cases hs : w.switch with
  | none =>
    rw [slot?_eq_some_iff_of_none hs] at hi hj
    omega
  | some point =>
    have hpoint := h point hs
    rw [slot?_eq_some_iff_of_some hs] at hi hj
    omega

/-- **On the stride**: a multiple of ten before the point of change, if there is
one, and from there on a multiple of a hundred past it. -/
def OnStride (w : Widening) (i : Nat) : Prop :=
  i % 10 = 0 ∧ (∀ point ∈ w.switch, i < point) ∨
    ∃ point ∈ w.switch, point ≤ i ∧ (i - point) % 100 = 0

instance (w : Widening) : DecidablePred w.OnStride := fun _ => inferInstanceAs (Decidable (_ ∨ _))

theorem onStride_iff_of_none (h : w.switch = none) : w.OnStride i ↔ i % 10 = 0 := by
  simp [OnStride, h]

theorem onStride_iff_of_some (h : w.switch = some point) :
    w.OnStride i ↔ i % 10 = 0 ∧ i < point ∨ point ≤ i ∧ (i - point) % 100 = 0 := by
  simp [OnStride, h]

/-- An iteration that has a slot is on the stride. -/
theorem onStride_of_slot? (hi : w.slot? i = some slot) : w.OnStride i := by
  cases hs : w.switch with
  | none => exact (onStride_iff_of_none hs).2 ((slot?_eq_some_iff_of_none hs).1 hi).1
  | some point =>
    rw [slot?_eq_some_iff_of_some hs] at hi
    rw [onStride_iff_of_some hs]
    omega

/-- What is on the stride are the multiples of it. -/
theorem onStride_iff_mod_strideAt (h : w.Aligned) : w.OnStride i ↔ i % w.strideAt i = 0 := by
  cases hs : w.switch with
  | none => simp [onStride_iff_of_none hs, strideAt, past?, hs]
  | some point =>
    have hpoint := h point hs
    rw [onStride_iff_of_some hs]
    simp only [strideAt, past?, hs]
    split
    · simp only [Option.isSome_some, if_true]
      omega
    · simp only [Option.isSome_none, Bool.false_eq_true, if_false]
      omega

/-- A multiple of a hundred is not what stands for no point. -/
theorem switch_widen (w : Widening) (hn : n % 100 = 0) : (w.widen n).switch = some n := by
  have hne : n ≠ wordCount - 1 := by
    rintro rfl
    exact absurd hn (by decide)
  rw [widen]
  exact if_neg hne

/-- **Widening moves no slot** of an iteration up to the point of change. -/
theorem slot?_widen (hs : w.switch = none) (hn : n % 100 = 0) (hi : i ≤ n) :
    (w.widen n).slot? i = w.slot? i := by
  have hcap : (w.widen n).capacity = w.capacity := rfl
  refine Option.ext fun slot => ?_
  rw [slot?_eq_some_iff_of_some (w.switch_widen hn), slot?_eq_some_iff_of_none hs, hcap]
  omega

/-- Nor does it take one off the stride. -/
theorem onStride_widen (hs : w.switch = none) (hn : n % 100 = 0) (hi : i ≤ n) :
    (w.widen n).OnStride i ↔ w.OnStride i := by
  rw [onStride_iff_of_some (w.switch_widen hn), onStride_iff_of_none hs]
  omega

/-- **A slot goes on serving**: up to the point of change it stays that of its
iteration, and past it a slot was until now that of an iteration past it
as well. -/
theorem exists_slot?_of_widen (hs : w.switch = none) (hn : n % 100 = 0)
    (hi : (w.widen n).slot? i = some slot) :
    ∃ j, w.slot? j = some slot ∧ (i ≤ n → j = i) ∧ (n < i → n < j) := by
  have hcap : (w.widen n).capacity = w.capacity := rfl
  rw [slot?_eq_some_iff_of_some (w.switch_widen hn), hcap] at hi
  refine ⟨10 * slot, (slot?_eq_some_iff_of_none hs).2 ⟨by omega, by omega, hi.1⟩, ?_, ?_⟩
  · intro hle
    omega
  · intro hlt
    omega

end Widening

end VerifiableDelay
