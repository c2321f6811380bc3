import VerifiableDelay.Error
import VerifiableDelay.Integer.Size
/-!
# Sums and products that leave their word

Settings, iterations and slots are counted in machine words, and a sum or a
product of two words may be none. What comes of it is decided when a program
is built: either it checks and stops, or it goes on with what is left of the
number in the word. Where nothing leaves its word this makes no difference
(`Overflow.word_of_lt`), and what is gone on with is never more than the
number (`Overflow.le_of_word`).
-/

namespace VerifiableDelay

/-- What a build does with a number that leaves its word. -/
inductive Overflow where
  /-- It checks every sum and product, and stops. -/
  | stops
  /-- It goes on with the remainder by the number of words. -/
  | wraps
  deriving Repr, DecidableEq

namespace Overflow

/-- **A sum or a product** as its word has it. -/
def word (o : Overflow) (n : Nat) : Except DelayError Nat :=
  if n < wordCount then .ok n
  else
    match o with
    | .stops => .error .overflow
    | .wraps => .ok (n % wordCount)

variable {o : Overflow} {n m : Nat} {e : DelayError}

theorem word_of_lt (h : n < wordCount) : o.word n = .ok n := if_pos h

theorem word_eq_ok_iff :
    o.word n = .ok m ↔ n < wordCount ∧ m = n ∨ wordCount ≤ n ∧ o = .wraps ∧ m = n % wordCount := by
  by_cases h : n < wordCount
  · rw [word_of_lt h, Except.ok.injEq]
    simp [h, Nat.not_le.2 h, eq_comm]
  · unfold word
    rw [if_neg h]
    cases o <;> simp [h, Nat.not_lt.1 h, eq_comm]

/-- **Only a build that checks stops.** -/
theorem exists_word_iff : (∃ m, o.word n = .ok m) ↔ (o = .stops → n < wordCount) := by
  by_cases h : n < wordCount
  · simp [word_of_lt h, h]
  · unfold word
    cases o <;> simp [h]

/-- **What is gone on with is no more than the number.** -/
theorem le_of_word (h : o.word n = .ok m) : m ≤ n := by
  rcases word_eq_ok_iff.1 h with ⟨-, rfl⟩ | ⟨-, -, rfl⟩
  · exact Nat.le_refl _
  · exact Nat.mod_le _ _

theorem word_eq_error (h : o.word n = .error e) : e = .overflow := by
  unfold word at h
  split at h
  · cases h
  · cases o with
    | stops => exact (Except.error.inj h).symm
    | wraps => cases h

end Overflow

end VerifiableDelay
