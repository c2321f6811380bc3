import VerifiableDelay.Proofs.Euclid.Sequence
/-!
# Where the partial sequence stops

`partialGcdByDivision` only ever divides, and stops at the first remainder that
is at most the bound. Steps on words are made while the lower word is above
that of the bound, and a word does not say on which side of its digits the
remainder is: it may be at the bound already when one more step is made. It was
above the bound before that, so **one division more is all it can come to**
(`stops_at_first_iff`), and there is none where the numbers are words themselves.
-/

namespace VerifiableDelay

namespace Remainders

variable {a b bound : Int} {k : Nat} {x y : Remainders} {m : Descent} {w : Window}

/-- **The loop that only ever divides.** -/
def divideUntil (bound : Int) (x : Remainders) : Remainders :=
  if x.lower ≠ 0 ∧ bound < x.lower then divideUntil bound x.divide else x
termination_by x.lower.natAbs
decreasing_by
  rename_i h
  change (x.upper.tmod x.lower).natAbs < _
  rw [Int.natAbs_tmod]
  exact Nat.mod_lt _ (by omega)

theorem divideUntil_divide (h : x.lower ≠ 0 ∧ bound < x.lower) :
    divideUntil bound x.divide = divideUntil bound x := by
  conv_rhs => rw [divideUntil, if_pos h]

theorem divideUntil_of_not (h : ¬ (x.lower ≠ 0 ∧ bound < x.lower)) :
    divideUntil bound x = x := by
  rw [divideUntil, if_neg h]

/-- It ends as it should, and began its last division above the bound. -/
theorem divideUntil_spec (bound : Int) (x : Remainders) :
    ¬ ((divideUntil bound x).lower ≠ 0 ∧ bound < (divideUntil bound x).lower) ∧
      (bound < x.upper → bound < (divideUntil bound x).upper) := by
  induction x using divideUntil.induct bound with
  | case1 x hcond ih =>
    rw [← divideUntil_divide hcond]
    exact ⟨ih.1, fun _ => ih.2 hcond.2⟩
  | case2 x hcond =>
    rw [divideUntil_of_not hcond]
    exact ⟨hcond, id⟩

/-- **Divisions that did not begin beyond the bound** lead to where the loop
goes through, or once more than it divides. -/
theorem Divisions.divideUntil_eq (h : Divisions bound k x y) :
    divideUntil bound y = divideUntil bound x ∨
      0 < (divideUntil bound x).lower ∧ y = (divideUntil bound x).divide := by
  induction h with
  | none _ => exact .inl rfl
  | @divide k x y _ hlower habove ih =>
    rcases ih with heq | ⟨hpos, heq⟩
    · by_cases hbound : bound < y.lower
      · exact .inl ((divideUntil_divide ⟨hlower.ne', hbound⟩).trans heq)
      · have hstop : divideUntil bound y = y := divideUntil_of_not fun hcond => hbound hcond.2
        rw [← heq, hstop]
        exact .inr ⟨hlower, rfl⟩
    · -- the division before this one was beyond the loop, and so below the bound
      have hstop := (divideUntil_spec bound x).1
      have hupper : y.upper = (divideUntil bound x).lower := congrArg Remainders.upper heq
      exact absurd ⟨hpos.ne', hupper ▸ habove⟩ hstop

/-! ## Words that are the numbers -/

/-- Where the words are the remainders, each step is made where the loop divides. -/
theorem divideUntil_run (word : Int64) (hword : bound ≤ word.toInt) (h0 : 0 ≤ word.toInt)
    (hu : x.upper < 2 ^ 63) (hl : x.lower < 2 ^ 63) (hw : w.Tracks m x.upper x.lower)
    (hlt : w.lower.toInt < w.upper.toInt) :
    divideUntil bound (x.apply (w.run word)) = divideUntil bound (x.apply w) := by
  induction w using Window.run.induct word generalizing m with
  | case1 w hcond haccepts ih =>
    have hlower : word.toInt < w.lower.toInt := Int64.lt_iff_toInt_lt.1 hcond.2
    obtain ⟨κ, hκ, hκ1, htracks, hless⟩ := hw.next (by omega) hu hl
    obtain ⟨hr, hs⟩ := m.comp_division_pos hκ hκ1
    have hpos := (htracks.certifies hu hl hr hs hless haccepts).2
    obtain ⟨hlow, -, hdivide⟩ := apply_next hκ hκ1 hw htracks htracks.leads hpos hless
    have hupper : w.next.upper = w.lower := rfl
    rw [hupper] at hlow
    rw [Window.run, if_pos hcond, if_pos haccepts, ih htracks hless, hdivide]
    exact divideUntil_divide ⟨by omega, by omega⟩
  | case2 w hcond haccepts =>
    rw [Window.run, if_pos hcond, if_neg haccepts]
  | case3 w hcond =>
    rw [Window.run, if_neg hcond]

theorem Ordered.divideUntil_advance (h : x.Ordered) (hx : x.upper < 2 ^ 63) (hb : 0 ≤ bound)
    (hlower : bound < x.lower) : divideUntil bound (x.advance bound) = divideUntil bound x := by
  have hlt := h.lower_lt
  have hshift : x.shift = 0 := by
    have hlen : ∀ y : Nat, y < 2 ^ 63 → bitLength y ≤ 63 := fun y hy => by
      rcases Nat.eq_zero_or_pos y with rfl | hpos
      · decide
      · exact (Nat.log2_lt hpos.ne').2 hy
    have hupper := hlen x.upper.natAbs (by omega)
    have hlow := hlen x.lower.natAbs (by have := h.lower_nonneg; omega)
    unfold shift
    omega
  have hword := (h.words hb (by omega)).1
  have hopened := h.opened
  have heq := h.apply_opened
  rw [hshift, pow_zero, Int.ediv_one] at hword
  rw [hshift, pow_zero, Int.ediv_one, Int.ediv_one] at hopened
  rw [hshift] at heq
  rw [Remainders.advance]
  simp only [hshift]
  split
  · exact divideUntil_divide ⟨by omega, hlower⟩
  · have hless : (Window.opened x.upper x.lower 0).lower.toInt <
        (Window.opened x.upper x.lower 0).upper.toInt := by
      have hupper := (h.words h.upper_nonneg le_rfl).1
      have hlow := (h.words h.lower_nonneg hlt.le).1
      rw [hshift, pow_zero, Int.ediv_one] at hupper hlow
      change (Window.word x.lower 0).toInt < (Window.word x.upper 0).toInt
      omega
    rw [divideUntil_run _ hword.ge (hb.trans_eq hword.symm) hx (by omega) hopened hless, heq]

theorem Ordered.divideUntil_advanceMany (fuel : Nat) (h : x.Ordered) (hx : x.upper < 2 ^ 63)
    (hb : 0 ≤ bound) :
    divideUntil bound (Remainders.advanceMany bound fuel x) = divideUntil bound x := by
  induction fuel generalizing x with
  | zero => rfl
  | succ fuel ih =>
    rw [Remainders.advanceMany]
    split
    · rename_i hcond
      obtain ⟨k, hk⟩ := h.advance hb hcond.2
      rw [ih (hk.ordered h) ((hk.upper_le h).trans_lt hx),
        h.divideUntil_advance hx hb hcond.2]
    · rfl

end Remainders

/-- The partial sequence, were it to divide only. -/
def partialGcdByDivision (a b bound : Int) : Remainders :=
  Remainders.divideUntil bound (.start a b)

/-- **The sequence stops at the first remainder that is not above the bound
exactly if the one before it is above.** The loop that only divides, on the same
two numbers, ends with the first such remainder and the one before it. The
partial sequence ends in the same state or after one division more, and in the
same one just if its upper remainder is above the bound; and if the numbers are
words of 63 bits it always does. -/
theorem stops_at_first_iff {a b bound : Int} (hb : 0 ≤ b) (hba : b < a) (hbound : 0 ≤ bound)
    (hle : bound < a) :
    ((partialGcdByDivision a b bound).lower ≤ bound ∧
      bound < (partialGcdByDivision a b bound).upper) ∧
    (partialGcd a b bound = partialGcdByDivision a b bound ∨
      0 < (partialGcdByDivision a b bound).lower ∧
        partialGcd a b bound = (partialGcdByDivision a b bound).divide) ∧
    (partialGcd a b bound = partialGcdByDivision a b bound ↔
      bound < (partialGcd a b bound).upper) ∧
    (a < 2 ^ 63 → partialGcd a b bound = partialGcdByDivision a b bound) := by
  have hordered : (Remainders.start a b).Ordered := ⟨hb, hba⟩
  obtain ⟨k, hk, hlower⟩ := hordered.advanceMany (a.natAbs + b.natAbs + 1) hbound
    (by simp only [Remainders.start]; omega)
  have heq : partialGcd a b bound =
      Remainders.advanceMany bound (a.natAbs + b.natAbs + 1) (.start a b) := by
    rw [partialGcd, if_neg (not_lt.2 (hk.ordered hordered).upper_nonneg)]
  rw [← heq] at hk hlower
  have hstop : Remainders.divideUntil bound (partialGcd a b bound) = partialGcd a b bound :=
    Remainders.divideUntil_of_not fun hcond => not_lt.2 hlower hcond.2
  obtain ⟨hend, habove⟩ := Remainders.divideUntil_spec bound (.start a b)
  change _ → bound < (partialGcdByDivision a b bound).upper at habove
  have hfirst : (partialGcdByDivision a b bound).lower ≤ bound := by
    by_contra hlt
    exact hend ⟨(hbound.trans_lt (not_le.1 hlt)).ne', not_le.1 hlt⟩
  have hcases : partialGcd a b bound = partialGcdByDivision a b bound ∨
      0 < (partialGcdByDivision a b bound).lower ∧
        partialGcd a b bound = (partialGcdByDivision a b bound).divide := by
    have := hk.divideUntil_eq
    rwa [hstop] at this
  refine ⟨⟨hfirst, habove hle⟩, hcases, ⟨fun h => h ▸ habove hle, fun h => ?_⟩, fun ha => ?_⟩
  · refine hcases.resolve_right ?_
    rintro ⟨-, hdivide⟩
    rw [hdivide] at h
    exact not_lt.2 hfirst h
  · have := hordered.divideUntil_advanceMany (a.natAbs + b.natAbs + 1) ha hbound
    rwa [← heq, hstop] at this

/-- Of words it stops at the first remainder within the bound, and of numbers of
a bit more one too late. -/
theorem stops_at_first_iff_64_bits :
    partialGcd 89 55 10 = partialGcdByDivision 89 55 10 ∧
    ¬ (3458764513820540927 < (partialGcd 9223372036854775808 5764607523034234881
        3458764513820540927).upper) ∧
    partialGcd 9223372036854775808 5764607523034234881 3458764513820540927 =
      (partialGcdByDivision 9223372036854775808 5764607523034234881
        3458764513820540927).divide := by
  have hwords := stops_at_first_iff (a := 89) (b := 55) (by decide) (by decide)
    (by decide : (0 : Int) ≤ 10) (by decide)
  have hmore := stops_at_first_iff (a := 9223372036854775808) (b := 5764607523034234881)
    (by decide) (by decide) (by decide : (0 : Int) ≤ 3458764513820540927) (by decide)
  have hlate : ¬ 3458764513820540927 < (partialGcd 9223372036854775808 5764607523034234881
      3458764513820540927).upper := by decide +kernel
  exact ⟨hwords.2.2.2 (by decide), hlate,
    (hmore.2.1.resolve_left fun h => hlate (hmore.2.2.1.1 h)).2⟩

/-- Two numbers and a bound that is their difference. That is the first remainder
not above the bound. Its word, which leaves out the last bit, is above the
bound's word, so one step more is made, and the upper remainder that is left is
not above the bound. -/
theorem stops_one_late_64_bits :
    ((0 : Int) ≤ 5764607523034234881 ∧ (5764607523034234881 : Int) < 9223372036854775808 ∧
      (0 : Int) ≤ 3458764513820540927 ∧ (3458764513820540927 : Int) < 9223372036854775808) ∧
    partialGcdByDivision 9223372036854775808 5764607523034234881 3458764513820540927 =
        ⟨5764607523034234881, 3458764513820540927, -1, 1⟩ ∧
    partialGcd 9223372036854775808 5764607523034234881 3458764513820540927 =
        ⟨3458764513820540927, 2305843009213693954, 1, -2⟩ ∧
    ¬ 3458764513820540927 < (partialGcd 9223372036854775808 5764607523034234881
        3458764513820540927).upper := by
  decide +kernel

end VerifiableDelay
