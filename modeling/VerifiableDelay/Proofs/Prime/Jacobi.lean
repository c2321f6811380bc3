import VerifiableDelay.Prime.Residue
import Mathlib.NumberTheory.LegendreSymbol.JacobiSymbol
import Mathlib.Data.Nat.Factorization.Basic
import Mathlib.Data.Nat.Squarefree
/-!
# The Jacobi symbol

Over an odd number the loop computes the symbol of the library: each turn of it
is one of the two supplementary laws or reciprocity. **Over a number that is no
square the symbol takes the value minus one** (`exists_jacobiSym_eq_neg_one`): a
prime that divides the number an odd number of times has a residue that is no
square, and one number may be that residue there and one elsewhere.
-/

namespace VerifiableDelay

open NumberTheorySymbols

/-- The loop multiplies the symbol into the sign. -/
theorem jacobiFrom_eq {a n : Nat} {sign : Int} (hn : Odd n) :
    jacobiFrom a n sign = sign * J(a | n) := by
  induction a, n, sign using jacobiFrom.induct with
  | case1 sign =>
    rw [jacobiFrom, if_pos rfl, if_pos rfl, jacobiSym.one_right, mul_one]
  | case2 n sign h1 =>
    have := hn.pos
    rw [jacobiFrom, if_pos rfl, if_neg h1, Nat.cast_zero, jacobiSym.zero_left (by omega), mul_zero]
  | case3 a n sign ha heven ih =>
    have hlaw := jacobiSym.even_odd (a := (a : Int)) (b := n) (by exact_mod_cast heven)
      (Nat.odd_iff.1 hn)
    simp only [dite_eq_ite] at ih
    rw [jacobiFrom, if_neg ha, if_pos heven, ih hn, ← hlaw]
    split <;> simp
  | case4 a n sign ha hodd ih =>
    have ha2 : a % 2 = 1 := Nat.mod_two_ne_zero.1 hodd
    have hlaw := jacobiSym.quadratic_reciprocity_if ha2 (Nat.odd_iff.1 hn)
    simp only [dite_eq_ite] at ih
    rw [jacobiFrom, if_neg ha, if_neg hodd, ih (Nat.odd_iff.2 ha2), ← hlaw, Int.natCast_mod,
      ← jacobiSym.mod_left]
    split <;> simp

/-- **The symbol is that of the library**, for any integer over an odd number. -/
theorem jacobi_eq_jacobiSym (a : Int) {n : Nat} (hn : Odd n) : jacobi a n = J(a | n) := by
  have hpos : (0 : Int) < n := by exact_mod_cast hn.pos
  rw [jacobi, jacobiFrom_eq hn, one_mul, Int.toNat_of_nonneg (Int.emod_nonneg a hpos.ne'),
    ← jacobiSym.mod_left]

/-- A number that is no square has a prime factor of an odd exponent. -/
theorem exists_odd_factorization {n : Nat} (hn : n ≠ 0) (hsquare : ¬ IsSquare n) :
    ∃ p, p.Prime ∧ Odd (n.factorization p) := by
  obtain ⟨a, b, rfl, ha⟩ := Nat.sq_mul_squarefree n
  obtain ⟨hb, ha0⟩ : b ^ 2 ≠ 0 ∧ a ≠ 0 := mul_ne_zero_iff.1 hn
  have ha1 : a ≠ 1 := by
    rintro rfl
    exact hsquare ⟨b, by ring⟩
  have hp := Nat.minFac_prime ha1
  have hone : a.factorization a.minFac = 1 :=
    le_antisymm (ha.natFactorization_le_one _) (hp.factorization_pos_of_dvd ha0 a.minFac_dvd)
  refine ⟨a.minFac, hp, ?_⟩
  rw [Nat.factorization_mul hb ha0, Nat.factorization_pow]
  simp [hone]

/-- **The symbol is not trivial** over an odd number that is no square. -/
theorem exists_jacobiSym_eq_neg_one {n : Nat} (hodd : Odd n) (hsquare : ¬ IsSquare n) :
    ∃ a : Int, J(a | n) = -1 := by
  have hn : n ≠ 0 := hodd.pos.ne'
  obtain ⟨p, hp, hexp⟩ := exists_odd_factorization hn hsquare
  have : Fact p.Prime := ⟨hp⟩
  have hdvd : p ∣ n := Nat.dvd_of_factorization_pos hexp.pos.ne'
  have hp2 : p ≠ 2 := by
    rintro rfl
    exact Nat.not_even_iff_odd.2 hodd (even_iff_two_dvd.2 hdvd)
  obtain ⟨r, hr⟩ := FiniteField.exists_nonsquare (F := ZMod p) (by rwa [ZMod.ringChar_zmod_n])
  have hcoprime : Nat.Coprime p (n / p ^ n.factorization p) := Nat.coprime_ordCompl hp hn
  obtain ⟨x, hxp, hxm⟩ := Nat.chineseRemainder hcoprime r.val 1
  have hatPrime : J(x | p) = -1 := by
    rw [ZMod.nonsquare_iff_jacobiSym_eq_neg_one, Int.cast_natCast,
      (ZMod.natCast_eq_natCast_iff _ _ _).2 hxp, ZMod.natCast_zmod_val]
    exact hr
  have helsewhere : J(x | n / p ^ n.factorization p) = 1 := by
    have hone : (x : Int) % (n / p ^ n.factorization p : Nat) =
        1 % (n / p ^ n.factorization p : Nat) := by exact_mod_cast hxm
    rw [jacobiSym.mod_left' hone, jacobiSym.one_left]
  refine ⟨x, ?_⟩
  have : NeZero (p ^ n.factorization p) := ⟨pow_ne_zero _ hp.ne_zero⟩
  have : NeZero (n / p ^ n.factorization p) := ⟨(Nat.ordCompl_pos p hn).ne'⟩
  conv_lhs => rw [← Nat.ordProj_mul_ordCompl_eq_self n p]
  rw [jacobiSym.mul_right, jacobiSym.pow_right, hatPrime, helsewhere, hexp.neg_one_pow, mul_one]

end VerifiableDelay
