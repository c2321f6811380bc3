import VerifiableDelay.Proofs.Prime.Jacobi
import Mathlib.Tactic.GCongr
/-!
# The loops of the Jacobi symbol

The symbol is computed by a loop within a loop, and neither has a counter: the
inner one takes twos out of the upper number, the outer one lets the two numbers
change places and reduces. `Halves` and `Turns` say of them where they end,
whatever their length. A turn of either at least halves the product of the two
numbers, so **there are few of them, and what they come to is the product of the
Legendre symbols** (`jacobi_is_legendre_product`).
-/

namespace VerifiableDelay

namespace Jacobi

variable {a b m n k i : Nat} {sign sign' : Int}

/-- The sign after two is taken out over `n`. -/
def signOfTwo (n : Nat) (sign : Int) : Int := if n % 8 = 3 ∨ n % 8 = 5 then -sign else sign

/-- The sign after two odd numbers change places. -/
def signOfExchange (a n : Nat) (sign : Int) : Int :=
  if a % 4 = 3 ∧ n % 4 = 3 then -sign else sign

/-- The inner loop over `n`, entered with a number and a sign, ends with others
after so many turns. -/
inductive Halves (n : Nat) : Nat → (a : Nat) → Int → (b : Nat) → Int → Prop
  /-- An odd number ends it. -/
  | done {a : Nat} {sign : Int} : a % 2 = 1 → Halves n 0 a sign a sign
  /-- Any other is halved. -/
  | turn {i a b : Nat} {sign sign' : Int} : a % 2 = 0 →
      Halves n i (a / 2) (signOfTwo n sign) b sign' → Halves n (i + 1) a sign b sign'

/-- The outer loop, entered with a number over another and a sign, ends with
zero over `m` and a sign, after so many turns of it and of the inner one. -/
inductive Turns : Nat → (a n : Nat) → Int → (m : Nat) → Int → Prop
  /-- Zero ends it. -/
  | done {n : Nat} {sign : Int} : Turns 0 0 n sign n sign
  /-- Of any other number the twos are taken out, and it changes places with
  what is left of the lower one. -/
  | turn {i k a b n m : Nat} {sign sign' sign'' : Int} : a ≠ 0 → Halves n i a sign b sign' →
      Turns k (n % b) b (signOfExchange b n sign') m sign'' → Turns (i + 1 + k) a n sign m sign''

/-- Each turn of the inner loop takes out a two. -/
theorem Halves.two_pow_mul (h : Halves n i a sign b sign') : 2 ^ i * b = a ∧ b % 2 = 1 := by
  induction h with
  | done hodd => exact ⟨by simp, hodd⟩
  | @turn i a b sign sign' heven _ ih =>
    refine ⟨?_, ih.2⟩
    calc 2 ^ (i + 1) * b = 2 * (2 ^ i * b) := by ring
      _ = 2 * (a / 2) := by rw [ih.1]
      _ = a := by omega

/-- One two more takes one turn more of the inner loop. -/
theorem Turns.two_mul (h : Turns k a n (signOfTwo n sign) m sign') (ha : a ≠ 0) :
    Turns (k + 1) (2 * a) n sign m sign' := by
  cases h with
  | done => exact absurd rfl ha
  | @turn i k _ b _ _ _ _ _ _ hhalves hrest =>
    have hfirst : Halves n (i + 1) (2 * a) sign b _ :=
      .turn (Nat.mul_mod_right 2 a) ((Nat.mul_div_cancel_left a Nat.two_pos).symm ▸ hhalves)
    rw [Nat.add_right_comm, Nat.add_right_comm i]
    exact .turn (by omega) hfirst hrest

/-- **The loops end with what is computed.** -/
theorem exists_turns (a n : Nat) (sign : Int) :
    ∃ k m sign', Turns k a n sign m sign' ∧
      jacobiFrom a n sign = if m = 1 then sign' else 0 := by
  induction a, n, sign using jacobiFrom.induct with
  | case1 sign => exact ⟨0, 1, sign, .done, by rw [jacobiFrom, if_pos rfl]⟩
  | case2 n sign _ => exact ⟨0, n, sign, .done, by rw [jacobiFrom, if_pos rfl]⟩
  | case3 a n sign ha heven ih =>
    simp only [dite_eq_ite] at ih
    obtain ⟨k, m, sign', hturns, heq⟩ := ih
    have hhalf : Turns k (a / 2) n (signOfTwo n sign) m sign' := hturns
    have hmore := hhalf.two_mul (by omega)
    rw [show 2 * (a / 2) = a by omega] at hmore
    exact ⟨k + 1, m, sign', hmore, by rw [jacobiFrom, if_neg ha, if_pos heven, heq]⟩
  | case4 a n sign ha hodd ih =>
    simp only [dite_eq_ite] at ih
    obtain ⟨k, m, sign', hturns, heq⟩ := ih
    refine ⟨0 + 1 + k, m, sign', .turn ha (.done (Nat.mod_two_ne_zero.1 hodd)) hturns, ?_⟩
    rw [jacobiFrom, if_neg ha, if_neg hodd, heq]

/-- What is left of a number by one that is no larger is half of it at most. -/
theorem two_mul_mod_le (hb : 0 < b) (h : b ≤ n) : 2 * (n % b) ≤ n := by
  have hdiv := Nat.div_add_mod n b
  have hquotient : b * 1 ≤ b * (n / b) := Nat.mul_le_mul_left b (Nat.div_pos h hb)
  have hlt := Nat.mod_lt n hb
  omega

/-- **The turns are few**: the product of the two numbers can be halved about as
often. -/
theorem Turns.two_pow_le (h : Turns k a n sign m sign') (hlt : a < n) :
    k = 0 ∨ 2 ^ k ≤ 2 * (a * n) := by
  induction h with
  | done => exact .inl rfl
  | @turn i k a b n m sign sign' sign'' ha hhalves _ ih =>
    obtain ⟨hb, hodd⟩ := hhalves.two_pow_mul
    have hble : b ≤ n := by
      have := Nat.le_mul_of_pos_left b (Nat.two_pow_pos i)
      omega
    refine .inr ?_
    -- the inner turns halve `a`, and the exchange leaves half of `n` at most
    rcases ih (Nat.mod_lt n (by omega)) with rfl | hk
    · calc 2 ^ (i + 1) = 2 * (2 ^ i * 1) := by ring
        _ ≤ 2 * (2 ^ i * b) := by gcongr; omega
        _ = 2 * (a * 1) := by rw [hb, mul_one]
        _ ≤ 2 * (a * n) := by gcongr; omega
    · calc 2 ^ (i + 1 + k) = 2 ^ (i + 1) * 2 ^ k := pow_add 2 (i + 1) k
        _ ≤ 2 ^ (i + 1) * (2 * (n % b * b)) := Nat.mul_le_mul_left _ hk
        _ = 2 * (2 ^ i * b * (2 * (n % b))) := by ring
        _ ≤ 2 * (2 ^ i * b * n) := by gcongr; exact two_mul_mod_le (by omega) hble
        _ = 2 * (a * n) := by rw [hb]

end Jacobi

/-- **The symbol is the product of the Legendre symbols** over the prime factors
of an odd number, each taken as often as it divides: for any integer, negative,
zero or beyond the number. The loops that compute it end, after no more turns of
both together than twice the square of the number can be halved. The symbol is
zero exactly where there is a common factor. -/
theorem jacobi_is_legendre_product (a : Int) {n : Nat} (hn : Odd n) :
    (∃ k m sign, Jacobi.Turns k (a % n).toNat n 1 m sign ∧ 2 ^ k ≤ 2 * n ^ 2 ∧
      jacobi a n = if m = 1 then sign else 0) ∧
    jacobi a n = (n.primeFactorsList.pmap (fun p hp => @legendreSym p ⟨hp⟩ a)
      fun _ => Nat.prime_of_mem_primeFactorsList).prod ∧
    (jacobi a n = 0 ↔ 1 < Int.gcd a n) := by
  have hpos : 0 < n := hn.pos
  have hsymbol := jacobi_eq_jacobiSym a hn
  refine ⟨?_, hsymbol, ?_⟩
  · obtain ⟨k, m, sign, hturns, heq⟩ := Jacobi.exists_turns (a % n).toNat n 1
    have hlt : (a % n).toNat < n := by
      have := Int.emod_lt_of_pos a (Int.natCast_pos.2 hpos)
      omega
    refine ⟨k, m, sign, hturns, ?_, heq⟩
    rcases hturns.two_pow_le hlt with rfl | hk
    · exact (show 2 ^ 0 ≤ 2 * 1 by decide).trans (Nat.mul_le_mul_left 2 (Nat.one_le_pow 2 n hpos))
    · refine hk.trans ?_
      rw [pow_two]
      gcongr
  · have : NeZero n := ⟨hpos.ne'⟩
    have hgcd : 0 < Int.gcd a n := Int.gcd_pos_of_ne_zero_right a (by omega)
    rw [hsymbol, jacobiSym.eq_zero_iff_not_coprime]
    omega

/-- Minus twenty-two over a number with a repeated prime factor, and a number
that shares one of its factors. -/
theorem jacobi_is_legendre_product_75 :
    Odd 75 ∧
    (∃ k m sign, Jacobi.Turns k 53 75 1 m sign ∧ 2 ^ k ≤ 2 * 75 ^ 2 ∧
      -1 = if m = 1 then sign else 0) ∧
    ((Nat.primeFactorsList 75).pmap (fun p hp => @legendreSym p ⟨hp⟩ (-22))
      fun _ => Nat.prime_of_mem_primeFactorsList).prod = -1 ∧
    jacobi (-10) 75 = 0 ∧ 1 < Int.gcd (-10) 75 := by
  have hodd : Odd 75 := by decide
  have hsymbol : jacobi (-22) 75 = -1 := by decide +kernel
  have hshared : jacobi (-10) 75 = 0 := by decide +kernel
  obtain ⟨hturns, hproduct, -⟩ := jacobi_is_legendre_product (-22) hodd
  rw [hsymbol] at hturns hproduct
  exact ⟨hodd, hturns, hproduct.symm, hshared,
    (jacobi_is_legendre_product (-10) hodd).2.2.1 hshared⟩

end VerifiableDelay
