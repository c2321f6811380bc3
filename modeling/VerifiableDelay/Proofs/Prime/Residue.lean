import VerifiableDelay.Prime.Residue
import Mathlib.Algebra.Ring.Parity
import Mathlib.Data.Nat.ModEq
import Mathlib.Tactic.Ring
/-!
# Powers and twos

The power by squaring is the power, and a number is split into its twos and
what is odd of it.
-/

namespace VerifiableDelay

/-- The remainder of a power, by squaring. -/
theorem powMod_eq (n b e : Nat) : powMod n b e = b ^ e % n := by
  induction e using Nat.strong_induction_on with
  | h e ih =>
    unfold powMod
    split
    · rename_i he
      rw [he, pow_zero]
    · rename_i he
      have hsquare : powMod n b (e / 2) * powMod n b (e / 2) % n = b ^ (2 * (e / 2)) % n := by
        rw [ih _ (by omega), ← Nat.mul_mod, two_mul, pow_add]
      have hsplit := Nat.div_add_mod e 2
      simp only [hsquare]
      split
      · rename_i heven
        rw [heven, add_zero] at hsplit
        rw [hsplit]
      · rename_i hodd
        rw [Nat.mod_mul_mod, ← pow_succ, show 2 * (e / 2) + 1 = e by omega]

/-- **The twos of a number and its odd part** make it up. -/
theorem splitTwos_spec {n : Nat} (hn : n ≠ 0) :
    n = 2 ^ (splitTwos n).1 * (splitTwos n).2 ∧ Odd (splitTwos n).2 := by
  induction n using Nat.strong_induction_on with
  | h n ih =>
    rw [splitTwos]
    split
    · rename_i hcond
      obtain ⟨heq, hodd⟩ := ih (n / 2) (by omega) (by omega)
      refine ⟨?_, hodd⟩
      calc n = 2 * (n / 2) := by omega
        _ = 2 * (2 ^ (splitTwos (n / 2)).1 * (splitTwos (n / 2)).2) := by rw [← heq]
        _ = 2 ^ ((splitTwos (n / 2)).1 + 1) * (splitTwos (n / 2)).2 := by ring
    · exact ⟨by simp, Nat.odd_iff.2 (by omega)⟩

/-- There is no other way to make it up of twos and an odd part. -/
theorem splitTwos_two_pow_mul {m : Nat} (hm : Odd m) (s : Nat) :
    splitTwos (2 ^ s * m) = (s, m) := by
  have hodd := Nat.odd_iff.1 hm
  induction s with
  | zero => rw [pow_zero, one_mul, splitTwos, if_neg (by omega)]
  | succ s ih =>
    have hdouble : 2 ^ (s + 1) * m = 2 * (2 ^ s * m) := by ring
    have hne : 2 ^ (s + 1) * m ≠ 0 := Nat.mul_ne_zero (Nat.two_pow_pos _).ne' (by omega)
    rw [splitTwos, if_pos ⟨hne, by rw [hdouble, Nat.mul_mod_right]⟩, hdouble,
      Nat.mul_div_cancel_left _ Nat.two_pos, ih]

end VerifiableDelay
