import VerifiableDelay.Proofs.Prime.Selfridge
import VerifiableDelay.Proofs.Prime.Sequences
import Mathlib.Order.Nat
/-!
# What the strong Lucas test decides

The search for a parameter passes over a candidate of symbol zero only if that is
the number itself, and it never comes so far: **below the number there is a
candidate whose symbol is not one** (`exists_candidate_lt`). Over a number that
leaves one modulo four a sign does not change the symbol, so there is a residue of
symbol minus one that is odd and below the number, and it or its opposite is a
candidate. Over one that leaves three the symbols of `n - 2`, `n - 6` and `-27`
multiply to that of `-18 * 18`, which is not one.

So the search ends at the first candidate of symbol minus one or at a common
factor before it (`search_cases`), and with the ladder **the test decides the
strong condition on the sequences**, for primes and composites alike
(`strong_condition_is_decided`).
-/

namespace VerifiableDelay

open NumberTheorySymbols

namespace Lucas

variable {n j k : Nat} {d : Int} {tried : List Int} {out : Search}

/-! ## How far the search goes -/

/-- Over a number that leaves one modulo four and is no square, a number below it
that leaves one as well has the symbol minus one. -/
theorem exists_lt_of_mod_four_eq_one (hmod : n % 4 = 1) (hn : 1 < n) (hsquare : ¬ IsSquare n) :
    ∃ d : Int, d % 4 = 1 ∧ J(d | n) = -1 ∧ d.natAbs < n := by
  have hodd : Odd n := Nat.odd_iff.2 (by omega)
  obtain ⟨a, ha⟩ := exists_jacobiSym_eq_neg_one hodd hsquare
  have hpos : (0 : Int) < n := by exact_mod_cast hodd.pos
  have hnonneg := Int.emod_nonneg a hpos.ne'
  have hlt := Int.emod_lt_of_pos a hpos
  have hne : a % n ≠ 0 := by
    intro hzero
    rw [jacobiSym.mod_left, hzero, jacobiSym.zero_left hn] at ha
    cases ha
  -- of the two residues about zero one is odd
  obtain ⟨e, he2, he, hlt⟩ : ∃ e : Int, e % 2 = 1 ∧ J(e | n) = -1 ∧ e.natAbs < n := by
    rcases Int.emod_two_eq_zero_or_one (a % n) with heven | hodd
    · refine ⟨a % n - n, by omega, ?_, by omega⟩
      rw [← ha]
      exact jacobiSym.mod_left' (by simp)
    · exact ⟨a % n, hodd, by rw [← jacobiSym.mod_left, ha], by omega⟩
  obtain h1 | h3 : e % 4 = 1 ∨ e % 4 = 3 := by omega
  · exact ⟨e, h1, he, hlt⟩
  · refine ⟨-e, by omega, ?_, by omega⟩
    rw [jacobiSym.neg e hodd, ZMod.χ₄_nat_one_mod_four hmod, one_mul, he]

/-- **Below the number there is a candidate whose symbol is not one**, if the
number is odd, no square and not too small. -/
theorem exists_candidate_lt (hodd : Odd n) (hlarge : 27 < n) (hsquare : ¬ IsSquare n) :
    ∃ j, J(candidate j | n) ≠ 1 ∧ 2 * j + 5 < n := by
  obtain h1 | h3 : n % 4 = 1 ∨ n % 4 = 3 := by
    have := Nat.odd_iff.1 hodd
    omega
  · obtain ⟨d, hd4, hd, hlt⟩ := exists_lt_of_mod_four_eq_one h1 (by omega) hsquare
    obtain ⟨j, hj, hlt⟩ := exists_candidate_of_jacobiSym hlarge hd4 hd hlt
    exact ⟨j, by rw [hj]; decide, hlt⟩
  · by_contra! hall
    have hone : ∀ d : Int, d % 4 = 1 → 5 ≤ d.natAbs → d.natAbs < n → J(d | n) = 1 := by
      intro d hd4 hd5 hlt
      obtain ⟨j, rfl⟩ := exists_candidate_eq hd4 hd5
      rw [natAbs_candidate] at hlt
      by_contra hne
      exact absurd (hall j hne) (by omega)
    have hproduct : J((n - 2) * (n - 6) * -27 | n) = 1 := by
      rw [jacobiSym.mul_left, jacobiSym.mul_left, hone (n - 2) (by omega) (by omega) (by omega),
        hone (n - 6) (by omega) (by omega) (by omega),
        hone (-27) rfl (by decide) (by simpa using hlarge)]
      rfl
    have hsquares : J((n - 2) * (n - 6) * -27 | n) = -(J(18 | n) * J(18 | n)) := by
      rw [show ((n - 2) * (n - 6) * -27 : Int) = -(18 * 18) + n * (-27 * (n - 8)) by ring,
        jacobiSym.mod_left, Int.add_mul_emod_self_left, ← jacobiSym.mod_left, jacobiSym.neg _ hodd,
        ZMod.χ₄_nat_three_mod_four h3, jacobiSym.mul_left, neg_one_mul]
    have := mul_self_nonneg (J(18 | n))
    omega

/-! ## Where it ends -/

/-- The search without an end passes over candidates of symbol one, and over the
number itself, and ends at the first other. -/
theorem Searches.exists_first (h : Searches n d tried out) (hodd : Odd n) (hd : d = candidate k) :
    ∃ j, k ≤ j ∧ (∀ i, k ≤ i → i < j → J(candidate i | n) = 1 ∨ 2 * i + 5 = n) ∧
      ((out = .parameter (candidate j) ∧ J(candidate j | n) = -1) ∨
        (out = .factor ∧ J(candidate j | n) = 0)) := by
  induction h generalizing k with
  | parameter hsymbol =>
    rw [hd, jacobi_eq_jacobiSym _ hodd] at hsymbol
    exact ⟨k, le_rfl, fun i hki hik => absurd hki (not_le.2 hik), .inl ⟨by rw [hd], hsymbol⟩⟩
  | factor hzero _ =>
    rw [hd, jacobi_eq_jacobiSym _ hodd] at hzero
    exact ⟨k, le_rfl, fun i hki hik => absurd hki (not_le.2 hik), .inr ⟨rfl, hzero⟩⟩
  | next hsymbol hzero _ ih =>
    obtain ⟨j, hkj, hpassed, hout⟩ := ih (k := k + 1) (by rw [hd, nextCandidate_candidate])
    refine ⟨j, by omega, fun i hki hij => ?_, hout⟩
    rcases hki.lt_or_eq with hlt | rfl
    · exact hpassed i hlt hij
    · rw [hd, jacobi_eq_jacobiSym _ hodd] at hsymbol hzero
      rw [natAbs_candidate] at hzero
      rcases jacobiSym.trichotomy (candidate k) n with h | h | h
      · exact .inr (by_contra fun hne => hzero ⟨h, hne⟩)
      · exact .inl h
      · exact absurd h hsymbol

/-- So the search ends at the first candidate whose symbol is not one, before it
comes to the number itself. -/
theorem exists_search_first (hodd : Odd n) (hlarge : 27 < n) (hsquare : ¬ IsSquare n) :
    ∃ k, (∀ i < k, J(candidate i | n) = 1) ∧
      ((search n = .parameter (candidate k) ∧ J(candidate k | n) = -1) ∨
        (search n = .factor ∧ J(candidate k | n) = 0)) := by
  obtain ⟨below, hbelow, hlt⟩ := exists_candidate_lt hodd hlarge hsquare
  obtain ⟨tried, hsearches, -⟩ := searches_search hodd (by omega) hsquare
  obtain ⟨k, -, hpassed, hout⟩ := hsearches.exists_first hodd (k := 0) rfl
  have hk : k ≤ below := by
    by_contra! hgt
    rcases hpassed below below.zero_le hgt with h | h
    · exact hbelow h
    · omega
  refine ⟨k, fun i hi => ?_, hout⟩
  exact (hpassed i i.zero_le hi).resolve_right (by omega)

/-- **The search ends at the first candidate of symbol minus one**, or at a
common factor before it. -/
theorem search_cases (hodd : Odd n) (hlarge : 27 < n) (hsquare : ¬ IsSquare n)
    (hfirst : IsLeast {i | J(candidate i | n) = -1} j) :
    (search n = .parameter (candidate j) ∧ ∀ i < j, Int.gcd (candidate i) n = 1) ∨
      (search n = .factor ∧ ∃ i < j, Int.gcd (candidate i) n ≠ 1) := by
  have : NeZero n := ⟨hodd.pos.ne'⟩
  have hminus : J(candidate j | n) = -1 := hfirst.1
  obtain ⟨k, hone, hout⟩ := exists_search_first hodd hlarge hsquare
  have hkj : k ≤ j := by
    by_contra! hgt
    rw [hone j hgt] at hminus
    cases hminus
  rcases hout with ⟨hout, hsymbol⟩ | ⟨hout, hsymbol⟩
  · obtain rfl : k = j := le_antisymm hkj (hfirst.2 hsymbol)
    refine .inl ⟨hout, fun i hi => by_contra fun hgcd => ?_⟩
    have hzero := jacobiSym.eq_zero_iff_not_coprime.2 hgcd
    rw [hone i hi] at hzero
    cases hzero
  · refine .inr ⟨hout, k, hkj.lt_of_ne ?_, jacobiSym.eq_zero_iff_not_coprime.1 hsymbol⟩
    rintro rfl
    rw [hminus] at hsymbol
    cases hsymbol

/-! ## The condition -/

/-- **The strong Lucas test decides the strong Lucas condition**, on any odd
number above the small primes that is no square. One of the candidates is the
first of symbol minus one, and the search returns it exactly if none before it
has a factor in common with the number. The test accepts exactly if that is so
and, for the sequences over the integers with the parameter `q` that belongs to
that candidate, `V` at `n + 1` is twice `q` modulo the number, and `U` at the odd
part `m` of `n + 1`, or `V` at `m * 2 ^ r` below `n + 1`, is zero. -/
theorem strong_condition_is_decided (hodd : Odd n) (hlarge : 251 < n) (hsquare : ¬ IsSquare n) :
    ∃ j, IsLeast {i | J(candidate i | n) = -1} j ∧
      (search n = .parameter (candidate j) ↔ ∀ i < j, Int.gcd (candidate i) n = 1) ∧
      ∀ (q : Int) (m s : Nat), q = (1 - candidate j) / 4 → Odd m → n + 1 = m * 2 ^ s →
        (passes n = true ↔ (∀ i < j, Int.gcd (candidate i) n = 1) ∧
          V q (n + 1) ≡ 2 * q [ZMOD n] ∧
          (U q m ≡ 0 [ZMOD n] ∨ ∃ r < s, V q (m * 2 ^ r) ≡ 0 [ZMOD n])) := by
  obtain ⟨i, hi, -⟩ := exists_candidate_jacobi hodd (by omega) hsquare
  have hex : ∃ i, J(candidate i | n) = -1 := ⟨i, (jacobi_eq_jacobiSym _ hodd).symm.trans hi⟩
  obtain ⟨j, hfirst⟩ : ∃ j, IsLeast {i | J(candidate i | n) = -1} j := ⟨_, Nat.isLeast_find hex⟩
  refine ⟨j, hfirst, ?_⟩
  rcases search_cases hodd (by omega) hsquare hfirst with ⟨hout, hcoprime⟩ | ⟨hout, i, hi, hne⟩
  · refine ⟨iff_of_true hout hcoprime, fun q m s hq hm hsplit => ?_⟩
    have htwos : splitTwos (n + 1) = (s, m) := by
      rw [hsplit, mul_comm, splitTwos_two_pow_mul hm]
    have hpasses : passes n = passesWith n (candidate j) := by rw [passes, hout]
    rw [hpasses, passesWith_iff hodd (by omega) (candidate_emod_four j) hq htwos, and_comm,
      and_iff_right hcoprime]
    simp only [U_modEq_iff, V_modEq_iff, Int.cast_zero, Int.cast_mul, Int.cast_ofNat]
  · have hnot : ¬ ∀ i < j, Int.gcd (candidate i) n = 1 := fun hall => hne (hall i hi)
    have hsearch : search n ≠ .parameter (candidate j) := by rw [hout]; exact Search.noConfusion
    have hrejected : passes n = false := by rw [passes, hout]
    refine ⟨iff_of_false hsearch hnot, fun q m s _ _ _ => ?_⟩
    exact iff_of_false (by rw [hrejected]; decide) fun h => hnot h.1

/-- A prime, and a composite that meets all of the condition but the last
congruence. -/
theorem strong_condition_is_decided_257_5459 :
    (Odd 257 ∧ 251 < 257 ∧ ¬ IsSquare 257) ∧ (Odd 5459 ∧ 251 < 5459 ∧ ¬ IsSquare 5459) ∧
    (passes 257 = true ∧ V (-1 : Int) 258 ≡ -2 [ZMOD 257] ∧
      (U (-1 : Int) 129 ≡ 0 [ZMOD 257] ∨ ∃ r < 1, V (-1 : Int) (129 * 2 ^ r) ≡ 0 [ZMOD 257])) ∧
    (passes 5459 = false ∧ V (2 : Int) 2730 ≡ 0 [ZMOD 5459] ∧
      ¬ V (2 : Int) 5460 ≡ 4 [ZMOD 5459]) := by
  have hprime : Odd 257 ∧ 251 < 257 ∧ ¬ IsSquare 257 := ⟨by decide, by decide, by decide +kernel⟩
  have hcomposite : Odd 5459 ∧ 251 < 5459 ∧ ¬ IsSquare 5459 :=
    ⟨by decide, by decide, by decide +kernel⟩
  have haccepted : passes 257 = true := by decide +kernel
  have hrejected : passes 5459 = false := by decide +kernel
  refine ⟨hprime, hcomposite, ⟨haccepted, ?_⟩, hrejected, ?_⟩
  · obtain ⟨j, hfirst, -, hiff⟩ := strong_condition_is_decided hprime.1 hprime.2.1 hprime.2.2
    have hsymbol : J(candidate 0 | 257) = -1 := by
      rw [← jacobi_eq_jacobiSym _ hprime.1]
      decide +kernel
    obtain rfl : j = 0 := Nat.le_zero.1 (hfirst.2 hsymbol)
    exact ((hiff (-1) 129 1 (by decide) (by decide) (by decide)).1 haccepted).2
  · obtain ⟨j, hfirst, -, hiff⟩ :=
      strong_condition_is_decided hcomposite.1 hcomposite.2.1 hcomposite.2.2
    have hone : jacobi (candidate 0) 5459 ≠ -1 := by decide +kernel
    have hminus : jacobi (candidate 1) 5459 = -1 := by decide +kernel
    rw [jacobi_eq_jacobiSym _ hcomposite.1] at hone hminus
    obtain rfl : j = 1 := by
      refine le_antisymm (hfirst.2 hminus) (Nat.pos_of_ne_zero ?_)
      rintro rfl
      exact hone hfirst.1
    have hterm : (term (5459 : Nat) (-7) 2 2730).v = 0 := by decide +kernel
    have hzero : V (2 : Int) 2730 ≡ 0 [ZMOD 5459] := by
      have hat := at_term hcomposite.1 (by decide) (by decide : (-7 : Int) = 1 - 4 * 2)
        (by decide : 1 ≤ 2730)
      exact (V_modEq_iff 2730).2 (hat.v.symm.trans (by rw [hterm]))
    refine ⟨hzero, fun hlast => ?_⟩
    have hpasses := (hiff 2 1365 2 (by decide) (by decide) (by decide)).2
      ⟨by decide, hlast, .inr ⟨1, by decide, hzero⟩⟩
    rw [hrejected] at hpasses
    cases hpasses

end Lucas

end VerifiableDelay
