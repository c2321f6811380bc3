import VerifiableDelay.Integer.Size
import Mathlib.Algebra.Group.Even
import Mathlib.Data.Nat.Sqrt
/-!
# Roots

The descent for square roots ends at the floor of the root, which is that of
the library: its square is at most the number and the next one above it, and
the roots of squares come out.
-/

namespace VerifiableDelay

/-- The descent is that of the library's square root. -/
theorem sqrtDescend_eq_iter (n x : Nat) : sqrtDescend n x = Nat.sqrt.iter n x := by
  fun_induction sqrtDescend n x with
  | case1 x y hy ih =>
    unfold Nat.sqrt.iter
    rw [dif_pos hy, ih]
  | case2 x y hy =>
    unfold Nat.sqrt.iter
    rw [dif_neg hy]

/-- **The floor of the root** is that of the library. -/
theorem floorSqrt_eq_sqrt (n : Nat) : floorSqrt n = n.sqrt := by
  by_cases h : n ≤ 1
  · have : n = 0 ∨ n = 1 := by omega
    rcases this with rfl | rfl <;> decide +kernel
  · rw [floorSqrt, sqrtDescend_eq_iter, Nat.sqrt, if_neg h, Nat.one_shiftLeft]

/-- The root of a square. -/
theorem floorSqrt_natAbs_mul_self {x : Int} (hx : 0 ≤ x) : (floorSqrt (x * x).natAbs : Int) = x := by
  rw [floorSqrt_eq_sqrt, Int.natAbs_mul, Nat.sqrt_eq]
  exact Int.natAbs_of_nonneg hx

theorem floorSqrt_mul_self_le (n : Nat) : floorSqrt n * floorSqrt n ≤ n := by
  rw [floorSqrt_eq_sqrt]
  exact n.sqrt_le

theorem lt_succ_floorSqrt_mul_self (n : Nat) : n < (floorSqrt n + 1) * (floorSqrt n + 1) := by
  rw [floorSqrt_eq_sqrt]
  exact n.lt_succ_sqrt

/-- The screen for squares lets no square through, and all else. -/
theorem isPerfectSquare_iff {n : Nat} : isPerfectSquare n = true ↔ IsSquare n := by
  rw [isPerfectSquare, floorSqrt_eq_sqrt, beq_iff_eq, ← Nat.exists_mul_self]
  exact exists_congr fun _ => eq_comm

end VerifiableDelay
