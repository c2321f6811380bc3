import VerifiableDelay.Proofs.Prime.Selfridge
import VerifiableDelay.Proofs.Prime.Sequences
import Mathlib.FieldTheory.IsAlgClosed.AlgebraicClosure
import Mathlib.FieldTheory.Perfect
import Mathlib.Tactic.NormNum.Prime
/-!
# Primes pass the test

Both strong tests come to one fact about numbers without zero divisors: if
squaring `s` times makes two of them equal, they are equal or one of the
squarings before the last makes them opposite. For the test to base two they are
a power of two and one. For the Lucas test they are powers of the two roots of
`X ^ 2 - X + q`, which the `p`-th power exchanges where the symbol is minus one.
So **no prime is turned away**, by any of the parts of the test (`primes_pass`).
-/

namespace VerifiableDelay

open NumberTheorySymbols

/-- What squaring makes equal is equal, or opposite on the way. -/
theorem eq_or_exists_add_eq_zero {R : Type*} [CommRing R] [NoZeroDivisors R] {x y : R} {s : Nat}
    (h : x ^ 2 ^ s = y ^ 2 ^ s) : x = y ∨ ∃ r < s, x ^ 2 ^ r + y ^ 2 ^ r = 0 := by
  induction s with
  | zero => exact .inl (by simpa using h)
  | succ s ih =>
    have hfactor : (x ^ 2 ^ s - y ^ 2 ^ s) * (x ^ 2 ^ s + y ^ 2 ^ s) = 0 := by
      rw [pow_succ, pow_mul, pow_mul] at h
      linear_combination h
    rcases mul_eq_zero.1 hfactor with hsub | hadd
    · rcases ih (sub_eq_zero.1 hsub) with heq | ⟨r, hr, hzero⟩
      · exact .inl heq
      · exact .inr ⟨r, hr.trans s.lt_succ_self, hzero⟩
    · exact .inr ⟨s, s.lt_succ_self, hadd⟩

/-! ## The strong test to base two -/

/-- The squarings come upon `-1` if one of the powers they go through is that: a
one before it would have made it one as well. -/
theorem reachesMinusOne_of_pow {n count x r : Nat} (hn : 2 < n) (hr : r < count)
    (h : x ^ 2 ^ (r + 1) % n = n - 1) : reachesMinusOne n count x = true := by
  induction count generalizing x r with
  | zero => omega
  | succ count ih =>
    have hsquare : (x * x % n) ^ 2 ^ r % n = n - 1 := by
      rw [← Nat.pow_mod, ← pow_two, ← pow_mul, ← pow_succ', h]
    rw [reachesMinusOne]
    split
    · rfl
    · rename_i hne
      rw [if_neg fun hone => ?_]
      · cases r with
        | zero =>
          rw [pow_zero, pow_one, Nat.mod_mod] at hsquare
          exact absurd hsquare hne
        | succ r => exact ih (by omega) hsquare
      · rw [hone, one_pow, Nat.mod_eq_of_lt (by omega)] at hsquare
        omega

section Prime

variable {p : Nat}

/-- Remainders of numbers that are equal modulo `p`. -/
theorem mod_eq_of_cast_eq {a b : Nat} (hb : b < p) (h : (a : ZMod p) = b) : a % p = b := by
  rw [← Nat.mod_eq_of_lt hb]
  exact (ZMod.natCast_eq_natCast_iff' a b p).1 h

/-- **An odd prime passes the strong test to base two.** -/
theorem passesStrongTest_of_prime (hp : p.Prime) (hp2 : p ≠ 2) : passesStrongTest p = true := by
  have : Fact p.Prime := ⟨hp⟩
  have hlarge : 2 < p := lt_of_le_of_ne hp.two_le hp2.symm
  obtain ⟨hprod, -⟩ := splitTwos_spec (n := p - 1) (by omega)
  rcases hsplit : splitTwos (p - 1) with ⟨s, m⟩
  rw [hsplit] at hprod
  have htwo : ((2 : Nat) : ZMod p) ≠ 0 := by
    rw [Ne, ZMod.natCast_eq_zero_iff]
    exact Nat.not_dvd_of_pos_of_lt two_pos hlarge
  have hfermat : (((2 : Nat) : ZMod p) ^ m) ^ 2 ^ s = 1 ^ 2 ^ s := by
    rw [← pow_mul, mul_comm, ← hprod, ZMod.pow_card_sub_one_eq_one htwo, one_pow]
  simp only [passesStrongTest, hsplit, powMod_eq, Bool.or_eq_true, beq_iff_eq]
  rcases eq_or_exists_add_eq_zero hfermat with hone | ⟨r, hr, hzero⟩
  · refine .inl (.inl (mod_eq_of_cast_eq (by omega) ?_))
    rw [Nat.cast_pow, hone, Nat.cast_one]
  · have hminus : (2 ^ m) ^ 2 ^ r % p = p - 1 := by
      refine mod_eq_of_cast_eq (by omega) ?_
      rw [Nat.cast_pow, Nat.cast_pow, Nat.cast_sub hp.one_le, ZMod.natCast_self, Nat.cast_one]
      linear_combination hzero - one_pow (M := ZMod p) (2 ^ r)
    cases r with
    | zero => exact .inl (.inr (by rwa [pow_zero, pow_one] at hminus))
    | succ r =>
      exact .inr (reachesMinusOne_of_pow hlarge (r := r) (by omega) (by rwa [← Nat.pow_mod]))

/-! ## The strong Lucas test -/

namespace Lucas

variable {d q : Int}

/-- The `p`-th power of a root of a number of symbol minus one is opposite to it. -/
theorem pow_eq_neg_of_jacobiSym {K : Type*} [Field K] [Fact p.Prime] [Algebra (ZMod p) K]
    (hp2 : p ≠ 2) (hsymbol : J(d | p) = -1) {δ : K} (hδ : δ * δ = d) : δ ^ p = -δ := by
  have hodd := (Fact.out : p.Prime).eq_two_or_odd.resolve_left hp2
  have heuler : (d : ZMod p) ^ (p / 2) = -1 := by
    rw [← legendreSym.eq_pow, jacobiSym.legendreSym.to_jacobiSym, hsymbol]
    norm_num
  have hpow : (d : K) ^ (p / 2) = -1 := by
    have := congrArg (algebraMap (ZMod p) K) heuler
    rwa [map_pow, map_intCast, map_neg, map_one] at this
  calc δ ^ p = δ ^ (2 * (p / 2) + 1) := by rw [show 2 * (p / 2) + 1 = p by omega]
    _ = (δ * δ) ^ (p / 2) * δ := by rw [pow_succ, pow_mul, pow_two]
    _ = -δ := by rw [hδ, hpow, neg_one_mul]

/-- **The roots of the polynomial are exchanged by the `p`-th power**, where the
symbol is minus one. -/
theorem exists_conjugate_roots [Fact p.Prime] (hp2 : p ≠ 2) (hd : d = 1 - 4 * q)
    (hsymbol : J(d | p) = -1) :
    ∃ α β : AlgebraicClosure (ZMod p),
      α ≠ β ∧ α + β = 1 ∧ α * β = q ∧ α ^ p = β ∧ β ^ p = α := by
  obtain ⟨δ, hδ⟩ := IsAlgClosed.exists_eq_mul_self (d : AlgebraicClosure (ZMod p))
  have hconj := pow_eq_neg_of_jacobiSym hp2 hsymbol hδ.symm
  have htwo : (2 : AlgebraicClosure (ZMod p)) ≠ 0 := by
    intro hzero
    have hdvd := (CharP.cast_eq_zero_iff (AlgebraicClosure (ZMod p)) p 2).1 (by exact_mod_cast hzero)
    exact hp2 ((Nat.prime_dvd_prime_iff_eq Fact.out Nat.prime_two).1 hdvd)
  have hδ0 : δ ≠ 0 := by
    rintro rfl
    rw [zero_mul, ← map_intCast (algebraMap (ZMod p) (AlgebraicClosure (ZMod p))), map_eq_zero,
      ← legendreSym.eq_zero_iff, jacobiSym.legendreSym.to_jacobiSym, hsymbol] at hδ
    cases hδ
  refine ⟨(1 + δ) / 2, (1 - δ) / 2, ?_, ?_, ?_, ?_, ?_⟩
  · intro heq
    rw [div_left_inj' htwo] at heq
    have hdouble : 2 * δ = 0 := by linear_combination heq
    exact hδ0 ((mul_eq_zero.1 hdouble).resolve_left htwo)
  · field_simp
    ring
  · have hcast : (d : AlgebraicClosure (ZMod p)) = 1 - 4 * q := by
      rw [hd]
      push_cast
      rfl
    rw [hδ] at hcast
    field_simp
    linear_combination -hcast
  · rw [← frobenius_def, map_div₀, map_add, map_one, frobenius_def, hconj, map_ofNat,
      ← sub_eq_add_neg]
  · rw [← frobenius_def, map_div₀, map_sub, map_one, frobenius_def, hconj, map_ofNat,
      sub_neg_eq_add]

/-- **An odd prime passes the strong Lucas test** with any parameter of symbol
minus one. -/
theorem passesWith_of_prime (hp : p.Prime) (hp2 : p ≠ 2) (hd : d % 4 = 1)
    (hsymbol : J(d | p) = -1) : passesWith p d = true := by
  have : Fact p.Prime := ⟨hp⟩
  obtain ⟨q, rfl⟩ : ∃ q, d = 1 - 4 * q := ⟨(1 - d) / 4, by omega⟩
  obtain ⟨α, β, hne, hsum, hprod, hα, hβ⟩ := exists_conjugate_roots hp2 rfl hsymbol
  have hα' : α ^ (p + 1) = q := by rw [pow_succ, hα, mul_comm, hprod]
  have hβ' : β ^ (p + 1) = q := by rw [pow_succ, hβ, hprod]
  obtain ⟨hsplit, -⟩ := splitTwos_spec (n := p + 1) (by omega)
  rcases htwos : splitTwos (p + 1) with ⟨s, m⟩
  rw [htwos] at hsplit
  -- equalities of members of the sequences hold modulo `p` if they hold in the closure
  have hinj := (algebraMap (ZMod p) (AlgebraicClosure (ZMod p))).injective
  rw [passesWith_iff (hp.odd_of_ne_two hp2) hp.one_lt hd (by omega : q = _) htwos]
  constructor
  · have hpow : (α ^ m) ^ 2 ^ s = (β ^ m) ^ 2 ^ s := by
      rw [← pow_mul, ← pow_mul, mul_comm, ← hsplit, hα', hβ']
    rcases eq_or_exists_add_eq_zero hpow with heq | ⟨r, hr, hzero⟩
    · refine .inl (hinj ?_)
      have hU := sub_mul_U_eq hsum hprod m
      rw [heq, sub_self] at hU
      rw [map_U, map_intCast, map_zero]
      exact (mul_eq_zero.1 hU).resolve_left (sub_ne_zero.2 hne)
    · refine .inr ⟨r, hr, hinj ?_⟩
      rw [map_V, map_intCast, map_zero, V_eq_add_pow hsum hprod, pow_mul, pow_mul, hzero]
  · refine hinj ?_
    rw [map_V, map_mul, map_intCast, map_ofNat, V_eq_add_pow hsum hprod, hα', hβ', two_mul]

end Lucas

/-! ## The whole test -/

/-- The search on a prime ends with a parameter. -/
theorem Lucas.search_of_prime (hp : p.Prime) (hp2 : p ≠ 2) :
    ∃ d, Lucas.search p = .parameter d ∧ d % 4 = 1 ∧ J(d | p) = -1 := by
  have hodd := hp.odd_of_ne_two hp2
  by_cases hsmall : p ≤ 13
  · have htable : ∀ p < 14, p.Prime → p ≠ 2 → ∃ d ∈ [5, -7, 13],
        search p = .parameter d ∧ d % 4 = 1 ∧ jacobi d p = -1 := by decide +kernel
    obtain ⟨d, -, hout, hd, hsymbol⟩ := htable p (by omega) hp hp2
    exact ⟨d, hout, hd, (jacobi_eq_jacobiSym d hodd).symm.trans hsymbol⟩
  · obtain ⟨tried, -, hall, hout⟩ :=
      searches_search hodd (not_le.1 hsmall) hp.prime.irreducible.not_isSquare
    rcases hout with ⟨d, hd, hout, hsymbol⟩ | ⟨-, d, -, hgcd, hgcdlt⟩
    · exact ⟨d, hout, (hall d hd).1, hsymbol⟩
    · have hdvd : Int.gcd d p ∣ p := by exact_mod_cast Int.gcd_dvd_right d p
      rcases (Nat.dvd_prime hp).1 hdvd with hone | hself <;> omega

/-- Trial division turns no prime away. -/
theorem trialDivision_of_prime (hp : p.Prime) : trialDivision p ≠ some false := by
  rw [trialDivision, if_neg (not_lt.2 hp.two_le)]
  intro h
  obtain ⟨f, hfind, hne⟩ := Option.map_eq_some_iff.1 h
  have hmem := List.mem_of_find?_eq_some hfind
  have hdvd : f ∣ p := Nat.dvd_of_mod_eq_zero (by simpa using List.find?_some hfind)
  rcases (Nat.dvd_prime hp).1 hdvd with rfl | rfl
  · exact absurd hmem (by decide)
  · simp at hne

end Prime

/-- **No prime is turned away.** It is accepted. Each part of the test says so for
itself: trial division does not turn it away, and an odd prime passes the strong
test to base two, is no square, leads the search to a parameter of symbol minus
one, and passes the strong Lucas test with that. -/
theorem primes_pass {n : Nat} (hn : n.Prime) :
    isProbablePrime n = true ∧ trialDivision n ≠ some false ∧
    (n ≠ 2 → passesStrongTest n = true ∧ isPerfectSquare n = false ∧
      ∃ d, Lucas.search n = .parameter d ∧ J(d | n) = -1 ∧ Lucas.passesWith n d = true) := by
  have htrial := trialDivision_of_prime hn
  have hodd : n ≠ 2 → passesStrongTest n = true ∧ isPerfectSquare n = false ∧
      ∃ d, Lucas.search n = .parameter d ∧ J(d | n) = -1 ∧ Lucas.passesWith n d = true := by
    intro hn2
    obtain ⟨d, hsearch, hd, hsymbol⟩ := Lucas.search_of_prime hn hn2
    refine ⟨passesStrongTest_of_prime hn hn2, ?_, d, hsearch, hsymbol,
      Lucas.passesWith_of_prime hn hn2 hd hsymbol⟩
    rw [Bool.eq_false_iff, Ne, isPerfectSquare_iff]
    exact hn.prime.irreducible.not_isSquare
  refine ⟨?_, htrial, hodd⟩
  rw [isProbablePrime]
  cases hverdict : trialDivision n with
  | some verdict =>
    cases verdict with
    | true => rfl
    | false => exact absurd hverdict htrial
  | none =>
    have hlarge := (odd_of_trialDivision hverdict).2
    obtain ⟨hstrong, hsquare, d, hsearch, -, hlucas⟩ := hodd (by omega)
    have hpasses : Lucas.passes n = true := by rwa [Lucas.passes, hsearch]
    rw [hstrong, hsquare, hpasses]
    rfl

/-- The least prime that trial division leaves to the strong tests. -/
theorem primes_pass_257 :
    Nat.Prime 257 ∧ isProbablePrime 257 = true ∧ passesStrongTest 257 = true ∧
      ∃ d, Lucas.search 257 = .parameter d ∧ Lucas.passesWith 257 d = true := by
  have hprime : Nat.Prime 257 := by norm_num
  obtain ⟨haccepted, -, hodd⟩ := primes_pass hprime
  obtain ⟨hstrong, -, d, hsearch, -, hlucas⟩ := hodd (by decide)
  exact ⟨hprime, haccepted, hstrong, d, hsearch, hlucas⟩

end VerifiableDelay
