import VerifiableDelay.Proofs.Euclid.Division
import Mathlib.Algebra.Order.Ring.Abs
/-!
# The cofactor is canonical

A cofactor of the first argument is known up to multiples of `b / gcd`, the
period: any two solutions of `a * s ≡ gcd` modulo `b` differ by such a multiple.
Of each residue modulo the period there is one number whose double is above
minus the period and not above it, which is what centering picks. **So the first
cofactor is the only solution in that range**
(`cofactor_is_canonical`), and nothing of it depends on the quotients that
were taken, nor on which representative of `a` modulo `b` was given.
-/

namespace VerifiableDelay

namespace Bezout

variable {a a' b s s' period : Int}

/-- A number whose double is within a period of zero, the upper end included. -/
def Centered (s period : Int) : Prop := -period < 2 * s ∧ 2 * s ≤ period

/-- Centering leads there. -/
theorem centered_centered (s : Int) (h : 0 < period) : Centered (centered s period) period := by
  have hnonneg := Int.emod_nonneg s h.ne'
  have hlt := Int.emod_lt_of_pos s h
  simp only [Centered, centered]
  split_ifs <;> omega

/-- **There is one centered number to a residue**: two of them are less than a
period apart. -/
theorem Centered.eq_of_dvd (h : Centered s period) (h' : Centered s' period)
    (hdvd : period ∣ s - s') : s = s' := by
  obtain ⟨hlow, hhigh⟩ := h
  obtain ⟨hlow', hhigh'⟩ := h'
  have habs : |s - s'| < period := abs_lt.2 ⟨by omega, by omega⟩
  exact sub_eq_zero.1 (Int.eq_zero_of_abs_lt_dvd hdvd habs)

theorem gcd_pos (a : Int) (hb : b ≠ 0) : (0 : Int) < Int.gcd a b := by
  exact_mod_cast Int.gcd_pos_of_ne_zero_right a hb

/-- The period is what is left of `b` without the divisor, up to sign. -/
theorem exists_period (a : Int) (hb : b ≠ 0) :
    ∃ b₁, b = Int.gcd a b * b₁ ∧ b₁ ≠ 0 ∧ |b| / Int.gcd a b = |b₁| := by
  have hpos := gcd_pos a hb
  obtain ⟨b₁, hb₁⟩ := Int.gcd_dvd_right a b
  refine ⟨b₁, hb₁, ?_, ?_⟩
  · rintro rfl
    exact hb (by rw [hb₁, mul_zero])
  · conv_lhs => rw [hb₁, abs_mul, abs_of_pos hpos, ← hb₁]
    exact Int.mul_ediv_cancel_left _ hpos.ne'

/-- The first cofactor is what centering leaves of some number. -/
theorem exists_left_eq (a : Int) (hb : b ≠ 0) :
    ∃ s, (of a b).left = centered s (|b| / Int.gcd a b) := by
  have hgcd := gcd_of a b
  have hpos := gcd_pos a hb
  obtain ⟨b₁, hb₁, -, hperiod⟩ := exists_period a hb
  have habs : ((b.tdiv (Int.gcd a b)).natAbs : Int) = |b| / Int.gcd a b := by
    rw [Int.tdiv_eq_of_eq_mul_right hpos.ne' hb₁, hperiod, Int.natCast_natAbs]
  rw [← habs]
  unfold of at hgcd ⊢
  revert hgcd
  generalize euclid a b 1 0 = x
  obtain ⟨r, s⟩ := x
  dsimp only
  generalize (if r < 0 then (-r, -s) else (r, s)) = x
  obtain ⟨g, t⟩ := x
  dsimp only
  split_ifs with hg
  · intro h
    dsimp only at h
    omega
  · rintro rfl
    exact ⟨t, rfl⟩

theorem centered_left (a : Int) (hb : b ≠ 0) : Centered (of a b).left (|b| / Int.gcd a b) := by
  obtain ⟨s, hs⟩ := exists_left_eq a hb
  obtain ⟨b₁, -, hb₁, hperiod⟩ := exists_period a hb
  rw [hs, hperiod]
  exact centered_centered s (abs_pos.2 hb₁)

/-- **Solutions differ by multiples of the period.** -/
theorem period_dvd_sub (hb : b ≠ 0) (h : a * s ≡ Int.gcd a b [ZMOD b])
    (h' : a * s' ≡ Int.gcd a b [ZMOD b]) : |b| / Int.gcd a b ∣ s - s' := by
  obtain ⟨b₁, hb₁, -, hperiod⟩ := exists_period a hb
  obtain ⟨r, hr⟩ := h.dvd
  obtain ⟨r', hr'⟩ := h'.dvd
  have hsum : a * s + b * r = Int.gcd a b := by linarith
  have hsum' : a * s' + b * r' = Int.gcd a b := by linarith
  rw [hperiod, abs_dvd]
  exact dvd_sub_of_combination (gcd_pos a hb).ne' (Int.gcd_dvd_left a b) hb₁ hsum hsum'

/-- **The first cofactor is the centered solution.** -/
theorem eq_left_iff (hb : b ≠ 0) :
    s = (of a b).left ↔
      Centered s (|b| / Int.gcd a b) ∧ a * s ≡ Int.gcd a b [ZMOD b] := by
  have hleft : a * (of a b).left ≡ Int.gcd a b [ZMOD b] := gcd_of a b ▸ modEq_left_of a b
  constructor
  · rintro rfl
    exact ⟨centered_left a hb, hleft⟩
  · rintro ⟨hs, hmod⟩
    exact hs.eq_of_dvd (centered_left a hb) (period_dvd_sub hb hmod hleft)

/-- The divisor is that of any representative of the first argument. -/
theorem gcd_congr (h : a ≡ a' [ZMOD b]) : Int.gcd a b = Int.gcd a' b := by
  rw [← Int.gcd_emod, h, Int.gcd_emod]

/-- And so is the cofactor. -/
theorem left_congr (h : a ≡ a' [ZMOD b]) : (of a b).left = (of a' b).left := by
  by_cases hb : b = 0
  · subst hb
    rw [Int.modEq_zero_iff.1 h]
  · obtain ⟨hs, hmod⟩ := (eq_left_iff (a := a) hb).1 rfl
    rw [gcd_congr h] at hs hmod
    exact (eq_left_iff hb).2 ⟨hs, (h.symm.mul_right _).trans hmod⟩

/-- **The greatest common divisor, with canonical cofactors.** For any two
integers it is found without a division by zero; it is the nonnegative one and
the cofactors combine the integers to it. If the second is not zero, the first
cofactor is the one solution `s` of `a * s ≡ gcd` modulo `b` with `2 * s` above
`-|b| / gcd` and not above `|b| / gcd`. So it depends on `a` only modulo `b`. -/
theorem cofactor_is_canonical (a b : Int) :
    ofWith .checked a b = some (of a b) ∧
    ((of a b).gcd = Int.gcd a b ∧ 0 ≤ (of a b).gcd) ∧
    a * (of a b).left + b * (of a b).right = (of a b).gcd ∧
    (b ≠ 0 → ∀ s, s = (of a b).left ↔
      (-(|b| / (of a b).gcd) < 2 * s ∧ 2 * s ≤ |b| / (of a b).gcd) ∧
        a * s ≡ (of a b).gcd [ZMOD b]) ∧
    ∀ a', a ≡ a' [ZMOD b] → (of a b).left = (of a' b).left := by
  have hgcd := gcd_of a b
  refine ⟨ofWith_eq .checked a b, ⟨hgcd, ?_⟩, left_add_right a b, fun hb s => ?_,
    fun a' h => left_congr h⟩
  · rw [hgcd]
    exact Int.natCast_nonneg _
  · rw [hgcd]
    exact eq_left_iff hb

/-- Both arguments negative, with a period of two, where both ends of the range
are solutions and the upper one is taken; and so it is of `-2`, which is `-6`
modulo `-4`. -/
theorem cofactor_is_canonical_of_neg_six :
    of (-6) (-4) = ⟨2, 1, -2⟩ ∧
    (∀ s : Int, s = 1 ↔ (-2 < 2 * s ∧ 2 * s ≤ 2) ∧ -6 * s ≡ 2 [ZMOD -4]) ∧
    (-6 : Int) ≡ -2 [ZMOD -4] ∧ (of (-2) (-4)).left = 1 := by
  have hof : of (-6) (-4) = ⟨2, 1, -2⟩ := by decide +kernel
  obtain ⟨-, -, -, hleft, hcongr⟩ := cofactor_is_canonical (-6) (-4)
  have hmod : (-6 : Int) ≡ -2 [ZMOD -4] := by decide
  have hrange := hleft (by decide)
  have hsame := hcongr (-2) hmod
  rw [hof] at hrange hsame
  exact ⟨hof, hrange, hmod, hsame.symm⟩

end Bezout

end VerifiableDelay
