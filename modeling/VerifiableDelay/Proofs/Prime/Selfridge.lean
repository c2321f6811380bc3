import VerifiableDelay.Prime.Test
import VerifiableDelay.Proofs.Integer.Roots
import VerifiableDelay.Proofs.Prime.Jacobi
/-!
# The search for a parameter

The candidates are the numbers that leave one modulo four, from five on, by
their magnitude. Those below `2 * n` in magnitude, with `1` and `-3` among them,
are every residue modulo an odd `n` once. So if `n` is no square the symbol is
`-1` at one of them; it is not `1`, and for `-3` there is `-27`. The search that
looks no further than that is therefore the one that looks on without an end:
`Searches` is the latter, and the test ends on every number (`test_ends`).
-/

namespace VerifiableDelay

open NumberTheorySymbols

namespace Lucas

variable {n count j k : Nat} {d : Int} {tried : List Int} {out : Search}

/-! ## The candidates -/

/-- The candidates in their order. -/
def candidate (k : Nat) : Int := if k % 2 = 0 then 2 * k + 5 else -(2 * k + 5)

theorem nextCandidate_candidate (k : Nat) : nextCandidate (candidate k) = candidate (k + 1) := by
  unfold nextCandidate candidate
  split_ifs <;> omega

theorem natAbs_candidate (k : Nat) : (candidate k).natAbs = 2 * k + 5 := by
  unfold candidate
  split_ifs <;> omega

theorem candidate_emod_four (k : Nat) : candidate k % 4 = 1 := by
  unfold candidate
  split_ifs <;> omega

theorem exists_candidate_eq (hd : d % 4 = 1) (h5 : 5 ≤ d.natAbs) : ∃ k, candidate k = d := by
  refine ⟨(d.natAbs - 5) / 2, ?_⟩
  unfold candidate
  split_ifs <;> omega

/-- Every residue modulo an odd number is that of a number below twice as much in
magnitude that leaves one modulo four. -/
theorem exists_emod_four_eq_one (hn : Odd n) (a : Int) :
    ∃ d : Int, d % 4 = 1 ∧ d % n = a % n ∧ d.natAbs < 2 * n := by
  have hpos : (0 : Int) < n := by exact_mod_cast hn.pos
  have hodd : (n : Int) % 2 = 1 := by exact_mod_cast Nat.odd_iff.1 hn
  have hnonneg := Int.emod_nonneg a hpos.ne'
  have hlt := Int.emod_lt_of_pos a hpos
  -- four that follow each other at this odd distance leave all there is modulo four
  obtain ⟨t, ht, hlow, hhigh⟩ : ∃ t : Int, (a % n + n * t) % 4 = 1 ∧ -2 ≤ t ∧ t ≤ 1 := by
    have hcases : (a % n + n * (-2)) % 4 = 1 ∨ (a % n + n * (-1)) % 4 = 1 ∨
        (a % n + n * 0) % 4 = 1 ∨ (a % n + n * 1) % 4 = 1 := by omega
    rcases hcases with h | h | h | h
    · exact ⟨_, h, by decide⟩
    · exact ⟨_, h, by decide⟩
    · exact ⟨_, h, by decide⟩
    · exact ⟨_, h, by decide⟩
  refine ⟨_, ht, by rw [Int.add_mul_emod_self_left, Int.emod_emod], ?_⟩
  obtain rfl | rfl | rfl | rfl : t = -2 ∨ t = -1 ∨ t = 0 ∨ t = 1 := by omega
  all_goals omega

/-- A number that leaves one modulo four and has the symbol minus one is a
candidate, or there is one below the same bound: it is not `1`, and for `-3`
there is `-27`. -/
theorem exists_candidate_of_jacobiSym {bound : Nat} (hbound : 27 < bound) (hd4 : d % 4 = 1)
    (hd : J(d | n) = -1) (hlt : d.natAbs < bound) :
    ∃ j, J(candidate j | n) = -1 ∧ 2 * j + 5 < bound := by
  obtain ⟨e, he4, he5, he, hlt⟩ : ∃ e : Int, e % 4 = 1 ∧ 5 ≤ e.natAbs ∧ J(e | n) = -1 ∧
      e.natAbs < bound := by
    by_cases h5 : 5 ≤ d.natAbs
    · exact ⟨d, hd4, h5, hd, hlt⟩
    · obtain rfl | rfl : d = 1 ∨ d = -3 := by omega
      · rw [jacobiSym.one_left] at hd
        cases hd
      · refine ⟨-27, rfl, by decide, ?_, by simpa using hbound⟩
        rw [show (-27 : Int) = (-3) ^ 3 by norm_num, jacobiSym.pow_left, hd]
        rfl
  obtain ⟨j, rfl⟩ := exists_candidate_eq he4 he5
  rw [natAbs_candidate] at hlt
  exact ⟨j, he, hlt⟩

/-- **One of the candidates has the symbol minus one**, if the number is odd, no
square and not too small. -/
theorem exists_candidate_jacobi (hodd : Odd n) (hlarge : 13 < n) (hsquare : ¬ IsSquare n) :
    ∃ j, jacobi (candidate j) n = -1 ∧ 2 * j + 5 < 2 * n := by
  obtain ⟨a, ha⟩ := exists_jacobiSym_eq_neg_one hodd hsquare
  obtain ⟨d, hd4, hdn, hlt⟩ := exists_emod_four_eq_one hodd a
  have hd : J(d | n) = -1 := (jacobiSym.mod_left' hdn).trans ha
  obtain ⟨j, hj, hlt⟩ := exists_candidate_of_jacobiSym (by omega) hd4 hd hlt
  exact ⟨j, (jacobi_eq_jacobiSym _ hodd).trans hj, hlt⟩

/-! ## The search -/

/-- **The search without an end.** From a candidate on it tries these, and ends
in the way said. -/
inductive Searches (n : Nat) : (d : Int) → (tried : List Int) → Search → Prop
  /-- It ends where the symbol is `-1`. -/
  | parameter {d : Int} : jacobi d n = -1 → Searches n d [d] (.parameter d)
  /-- It ends where the symbol is zero and the candidate not the number itself. -/
  | factor {d : Int} : jacobi d n = 0 → d.natAbs ≠ n → Searches n d [d] .factor
  /-- From any other candidate it goes on with the next. -/
  | next {d : Int} {tried : List Int} {out : Search} :
      jacobi d n ≠ -1 → ¬ (jacobi d n = 0 ∧ d.natAbs ≠ n) →
      Searches n (nextCandidate d) tried out → Searches n d (d :: tried) out

/-- A search through so many candidates is the one without an end, if there is
one of symbol minus one among them. -/
theorem searches_searchFrom (hkj : k ≤ j) (hcount : j < k + count)
    (hj : jacobi (candidate j) n = -1) :
    ∃ tried, Searches n (candidate k) tried (searchFrom n count (candidate k)) ∧
      ∀ d ∈ tried, ∃ i ≤ j, d = candidate i := by
  induction count generalizing k with
  | zero => omega
  | succ count ih =>
    have hfirst : ∀ d ∈ [candidate k], ∃ i ≤ j, d = candidate i := fun d hd =>
      ⟨k, hkj, List.mem_singleton.1 hd⟩
    simp only [searchFrom]
    split
    · rename_i hsymbol
      exact ⟨_, .parameter hsymbol, hfirst⟩
    · rename_i hsymbol
      split
      · rename_i hzero
        exact ⟨_, .factor hzero.1 hzero.2, hfirst⟩
      · rename_i hzero
        have hne : k ≠ j := by
          rintro rfl
          exact hsymbol hj
        obtain ⟨tried, htried, hall⟩ := ih (k := k + 1) (by omega) (by omega)
        rw [← nextCandidate_candidate] at htried
        refine ⟨_, .next hsymbol hzero htried, fun d hd => ?_⟩
        rcases List.mem_cons.1 hd with rfl | hd
        · exact ⟨k, hkj, rfl⟩
        · exact hall d hd

/-- What a search found is in what it tried. -/
theorem Searches.cases_out (h : Searches n d tried out) :
    (∃ e ∈ tried, out = .parameter e ∧ jacobi e n = -1) ∨
      (out = .factor ∧ ∃ e ∈ tried, jacobi e n = 0 ∧ e.natAbs ≠ n) := by
  induction h with
  | parameter hsymbol => exact .inl ⟨_, List.mem_singleton_self _, rfl, hsymbol⟩
  | factor hzero hne => exact .inr ⟨rfl, _, List.mem_singleton_self _, hzero, hne⟩
  | next _ _ _ ih =>
    rcases ih with ⟨e, he, hout⟩ | ⟨hout, e, he, hzero⟩
    · exact .inl ⟨e, List.mem_cons_of_mem _ he, hout⟩
    · exact .inr ⟨hout, e, List.mem_cons_of_mem _ he, hzero⟩

/-- A candidate of symbol zero that is not the number shares a proper factor with
it, if it is not too large. -/
theorem gcd_of_jacobi_eq_zero (hodd : Odd n) (hd : d = candidate k) (hlt : d.natAbs < 2 * n)
    (hzero : jacobi d n = 0) (hne : d.natAbs ≠ n) :
    1 < Int.gcd d n ∧ Int.gcd d n < n := by
  rw [jacobi_eq_jacobiSym _ hodd, jacobiSym.eq_zero_iff] at hzero
  have hpos := hodd.pos
  have hgcd : 0 < Int.gcd d n := Int.gcd_pos_of_ne_zero_right _ (by omega)
  have hdvd : Int.gcd d n ∣ n := by exact_mod_cast Int.gcd_dvd_right d n
  have hle := Nat.le_of_dvd hpos hdvd
  refine ⟨by omega, hle.lt_of_ne fun heq => hne ?_⟩
  -- the only multiple of the number among the candidates is itself
  obtain ⟨c, hc⟩ : n ∣ d.natAbs := by
    have := Int.gcd_dvd_left d n
    rw [heq] at this
    exact Int.natCast_dvd.1 this
  have hcand := natAbs_candidate k
  rw [← hd] at hcand
  have hc2 : c < 2 := by
    by_contra hge
    have := Nat.mul_le_mul_left n (not_lt.1 hge)
    omega
  obtain rfl | rfl : c = 0 ∨ c = 1 := by omega
  · omega
  · omega

/-- **The search that is made is the one without an end**, on any odd number
that is no square and not too small. What it tries leaves one modulo four and is
below twice the number in magnitude, and it ends at a candidate of symbol minus
one or at one that shares a proper factor with the number. -/
theorem searches_search (hodd : Odd n) (hlarge : 13 < n) (hsquare : ¬ IsSquare n) :
    ∃ tried, Searches n 5 tried (search n) ∧ (∀ d ∈ tried, d % 4 = 1 ∧ d.natAbs < 2 * n) ∧
      ((∃ d ∈ tried, search n = .parameter d ∧ J(d | n) = -1) ∨
        (search n = .factor ∧ ∃ d ∈ tried, 1 < Int.gcd d n ∧ Int.gcd d n < n)) := by
  obtain ⟨j, hj, hlt⟩ := exists_candidate_jacobi hodd hlarge hsquare
  obtain ⟨tried, htried, hall⟩ := searches_searchFrom (n := n) (Nat.zero_le j)
    (by omega : j < 0 + (n - 2)) hj
  have hbelow : ∀ d ∈ tried, ∃ i, d = candidate i ∧ d.natAbs < 2 * n := by
    intro d hd
    obtain ⟨i, hi, rfl⟩ := hall d hd
    exact ⟨i, rfl, by rw [natAbs_candidate]; omega⟩
  refine ⟨tried, htried, fun d hd => ?_, ?_⟩
  · obtain ⟨i, rfl, hi⟩ := hbelow d hd
    exact ⟨candidate_emod_four i, hi⟩
  · rcases htried.cases_out with ⟨d, hd, hout, hsymbol⟩ | ⟨hout, d, hd, hzero, hne⟩
    · exact .inl ⟨d, hd, hout, (jacobi_eq_jacobiSym d hodd).symm.trans hsymbol⟩
    · obtain ⟨i, hi, hlt⟩ := hbelow d hd
      exact .inr ⟨hout, d, hd, gcd_of_jacobi_eq_zero hodd hi hlt hzero hne⟩

end Lucas

/-! ## The test -/

/-- Numbers that trial division does not decide are odd and above the last of the
small primes. -/
theorem odd_of_trialDivision {n : Nat} (h : trialDivision n = none) : Odd n ∧ 251 < n := by
  have hsmall : ∀ n < 252, trialDivision n ≠ none := by decide +kernel
  refine ⟨?_, by_contra fun hle => hsmall n (by omega) h⟩
  unfold trialDivision at h
  split at h
  · cases h
  · rw [Option.map_eq_none_iff, List.find?_eq_none] at h
    have htwo := h 2 (by decide)
    rw [beq_iff_eq] at htwo
    exact Nat.odd_iff.2 (Nat.mod_two_ne_zero.1 htwo)

/-- **The primality test without an end to its search**: its verdict on a
number. -/
inductive Decides (n : Nat) : Bool → Prop
  /-- Trial division may give one. -/
  | trial {verdict : Bool} : trialDivision n = some verdict → Decides n verdict
  /-- The strong test to base two turns a number away, -/
  | strong : trialDivision n = none → passesStrongTest n = false → Decides n false
  /-- and so do the screen for squares -/
  | square : trialDivision n = none → passesStrongTest n = true → isPerfectSquare n = true →
      Decides n false
  /-- and a search that comes upon a factor. -/
  | factor {tried : List Int} : trialDivision n = none → passesStrongTest n = true →
      isPerfectSquare n = false → Lucas.Searches n 5 tried .factor → Decides n false
  /-- With the parameter it finds the strong Lucas test decides. -/
  | lucas {d : Int} {tried : List Int} : trialDivision n = none → passesStrongTest n = true →
      isPerfectSquare n = false → Lucas.Searches n 5 tried (.parameter d) →
      Decides n (Lucas.passesWith n d)

/-- The verdict that is given is that of the test without an end to its search. -/
theorem decides_isProbablePrime (n : Nat) : Decides n (isProbablePrime n) := by
  unfold isProbablePrime
  cases htrial : trialDivision n with
  | some verdict => exact .trial htrial
  | none =>
    obtain ⟨hodd, hlarge⟩ := odd_of_trialDivision htrial
    cases hstrong : passesStrongTest n with
    | false => simpa using Decides.strong htrial hstrong
    | true =>
      cases hsquare : isPerfectSquare n with
      | true => simpa using Decides.square htrial hstrong hsquare
      | false =>
        have hroot : ¬ IsSquare n := fun h => by
          rw [← isPerfectSquare_iff, hsquare] at h
          cases h
        obtain ⟨tried, htried, -, hout⟩ := Lucas.searches_search hodd (by omega) hroot
        rw [Bool.true_and, Bool.not_false, Bool.true_and, Lucas.passes]
        rcases hout with ⟨d, -, hout, -⟩ | ⟨hout, -⟩
        · rw [hout] at htried ⊢
          exact .lucas htrial hstrong hsquare htried
        · rw [hout] at htried ⊢
          exact .factor htrial hstrong hsquare htried

/-- **The test ends.** On an odd number above the small primes that is no square
the search without an end does end. All that it tries is below twice the number
in magnitude, and it comes upon a candidate of symbol minus one, or upon one that
shares a proper factor with the number. So on every number at all the test
without an end to its search has a verdict, and it is the one that is given. -/
theorem test_ends (n : Nat) :
    (Odd n → 251 < n → ¬ IsSquare n → ∃ tried, Lucas.Searches n 5 tried (Lucas.search n) ∧
      (∀ d ∈ tried, d.natAbs < 2 * n) ∧
      ((∃ d ∈ tried, Lucas.search n = .parameter d ∧ J(d | n) = -1) ∨
        (Lucas.search n = .factor ∧ ∃ d ∈ tried, 1 < Int.gcd d n ∧ Int.gcd d n < n))) ∧
    Decides n (isProbablePrime n) := by
  refine ⟨fun hodd hlarge hsquare => ?_, decides_isProbablePrime n⟩
  obtain ⟨tried, htried, hall, hout⟩ := Lucas.searches_search hodd (by omega) hsquare
  exact ⟨tried, htried, fun d hd => (hall d hd).2, hout⟩

/-- A prime on which the search goes as far as `-19`, and a composite on which it
comes upon the factor `17`. -/
theorem test_ends_2311_2941 :
    (Odd 2311 ∧ 251 < 2311 ∧ ¬ IsSquare 2311) ∧ (Odd 2941 ∧ 251 < 2941 ∧ ¬ IsSquare 2941) ∧
    (∃ tried, Lucas.Searches 2311 5 tried (.parameter (-19)) ∧ ∀ d ∈ tried, d.natAbs < 4622) ∧
    (∃ tried, Lucas.Searches 2941 5 tried .factor ∧
      ∃ d ∈ tried, 1 < Int.gcd d 2941 ∧ Int.gcd d 2941 < 2941) ∧
    Decides 2311 true ∧ Decides 2941 false := by
  have hprime : Odd 2311 ∧ 251 < 2311 ∧ ¬ IsSquare 2311 :=
    ⟨by decide, by decide, by decide +kernel⟩
  have hcomposite : Odd 2941 ∧ 251 < 2941 ∧ ¬ IsSquare 2941 :=
    ⟨by decide, by decide, by decide +kernel⟩
  have hparameter : Lucas.search 2311 = .parameter (-19) := by decide +kernel
  have hfactor : Lucas.search 2941 = .factor := by decide +kernel
  have haccepted : isProbablePrime 2311 = true := by decide +kernel
  have hrejected : isProbablePrime 2941 = false := by decide +kernel
  obtain ⟨hsearch, hdecides⟩ := test_ends 2311
  obtain ⟨hsearch', hdecides'⟩ := test_ends 2941
  obtain ⟨tried, htried, hlt, -⟩ := hsearch hprime.1 hprime.2.1 hprime.2.2
  obtain ⟨tried', htried', -, hout⟩ := hsearch' hcomposite.1 hcomposite.2.1 hcomposite.2.2
  rw [hparameter] at htried
  rw [hfactor] at htried' hout
  rw [haccepted] at hdecides
  rw [hrejected] at hdecides'
  refine ⟨hprime, hcomposite, ⟨tried, htried, hlt⟩, ⟨tried', htried', ?_⟩, hdecides, hdecides'⟩
  rcases hout with ⟨d, -, hd, -⟩ | ⟨-, hd⟩
  · cases hd
  · exact hd

end VerifiableDelay
