import VerifiableDelay.Euclid.Bezout
import Mathlib.Data.Int.GCD
import Mathlib.Data.Int.ModEq
import Mathlib.Tactic.LinearCombination
import Mathlib.Tactic.Linarith
import Mathlib.Tactic.Ring
/-!
# Bézout — the cofactors are cofactors

Along Euclid's algorithm the greatest common divisor of the two remainders
stays what it was, and each remainder is congruent to its cofactor times the
first argument. Centering the last cofactor changes it by a multiple of
`b / gcd` only, so the second cofactor that is left to supply exists.
-/

namespace VerifiableDelay

namespace Bezout

/-- **What Euclid's algorithm ends at**: a greatest common divisor, up to
sign, of the remainders it began with. -/
theorem natAbs_euclid_fst (r r' s s' : Int) : (euclid r r' s s').1.natAbs = Int.gcd r r' := by
  induction r, r', s, s' using euclid.induct with
  | case1 r s s' => simp [euclid]
  | case2 r r' s s' h ih =>
    rw [euclid, if_neg h, ih, Int.gcd_comm, Int.tmod_def, mul_comm, sub_eq_add_neg,
      ← neg_mul, Int.gcd_add_mul_right_left]

/-- And the cofactor it carries along: if both remainders are congruent to
their cofactors times `a`, so is the last. -/
theorem euclid_modEq {a b r r' s s' : Int} (h : r ≡ a * s [ZMOD b]) (h' : r' ≡ a * s' [ZMOD b]) :
    (euclid r r' s s').1 ≡ a * (euclid r r' s s').2 [ZMOD b] := by
  induction r, r', s, s' using euclid.induct with
  | case1 r s s' => simpa [euclid] using h
  | case2 r r' s s' hne ih =>
    rw [euclid, if_neg hne]
    refine ih h' ?_
    rw [Int.tmod_def, mul_sub]
    have hq := (Int.ModEq.refl (r.tdiv r')).mul h'
    calc r - r' * r.tdiv r' = r - r.tdiv r' * r' := by ring
      _ ≡ a * s - r.tdiv r' * (a * s') [ZMOD b] := h.sub hq
      _ = a * s - a * (r.tdiv r' * s') := by ring

/-- Centering changes a number by a multiple of the period. -/
theorem centered_modEq (s period : Int) : centered s period ≡ s [ZMOD period] := by
  simp only [centered]
  split
  · exact (Int.mod_modEq (s % period - period) period).symm.trans (by simp [Int.ModEq])
  · exact Int.mod_modEq s period

variable (a b : Int)

/-- **The divisor is the greatest common divisor.** -/
theorem gcd_of : (of a b).gcd = Int.gcd a b := by
  have h := natAbs_euclid_fst a b 1 0
  unfold of
  revert h
  generalize euclid a b 1 0 = x
  obtain ⟨r, s⟩ := x
  intro h
  simp only at h ⊢
  split_ifs <;> simp only at * <;> omega

/-- The first cofactor, modulo the second argument. -/
theorem modEq_left_of : a * (of a b).left ≡ (of a b).gcd [ZMOD b] := by
  have hgcd := natAbs_euclid_fst a b 1 0
  have hmod : (euclid a b 1 0).1 ≡ a * (euclid a b 1 0).2 [ZMOD b] :=
    euclid_modEq (by rw [mul_one]) (by simp [Int.ModEq])
  unfold of
  revert hgcd hmod
  generalize euclid a b 1 0 = x
  obtain ⟨r, s⟩ := x
  intro hgcd hmod
  simp only at hgcd hmod ⊢
  obtain ⟨g, t, hgt, hg, ht⟩ : ∃ g t, (if r < 0 then (-r, -s) else (r, s)) = (g, t) ∧
      g = Int.gcd a b ∧ a * t ≡ g [ZMOD b] := by
    by_cases hr : r < 0
    · exact ⟨-r, -s, if_pos hr, by omega, by rw [mul_neg]; exact hmod.symm.neg⟩
    · exact ⟨r, s, if_neg hr, by omega, hmod.symm⟩
  rw [hgt]
  simp only
  split_ifs with h0 hb
  · simp
  · subst hb
    simp only [Int.gcd_zero_right] at hg
    simp only [Int.modEq_zero_iff, Int.mul_sign_self]
    exact hg.symm
  · -- centering moves the cofactor by multiples of `b / g`, and `a` has the factor `g`
    have hgb : g ∣ b := hg ▸ Int.gcd_dvd_right a b
    have hga : g ∣ a := hg ▸ Int.gcd_dvd_left a b
    have hper : b ∣ a * ((b.tdiv g).natAbs : Int) := by
      obtain ⟨k, rfl⟩ := hga
      obtain ⟨l, rfl⟩ := hgb
      rw [Int.mul_tdiv_cancel_left _ h0]
      have : g * l ∣ g * k * l := ⟨k, by ring⟩
      rcases Int.natAbs_eq l with hl | hl
      · rwa [← hl]
      · rw [← Int.dvd_neg, ← mul_neg, ← hl]
        exact this
    refine Int.ModEq.trans ?_ ht
    exact ((centered_modEq t _).mul_left' (c := a)).of_dvd hper

/-- **Bézout's identity.** -/
theorem left_add_right : a * (of a b).left + b * (of a b).right = (of a b).gcd := by
  have h := modEq_left_of a b
  have hright : b ≠ 0 → (of a b).gcd ≠ 0 →
      (of a b).right = ((of a b).gcd - a * (of a b).left).tdiv b := by
    intro hb hg
    unfold of at hg ⊢
    revert hg
    simp only
    split_ifs <;> simp
  by_cases hb : b = 0
  · subst hb
    rw [zero_mul, add_zero]
    exact Int.modEq_zero_iff.1 h
  · have hg : (of a b).gcd ≠ 0 := by
      rw [gcd_of]
      simp [Int.gcd_eq_zero_iff, hb]
    rw [hright hb hg, Int.mul_tdiv_cancel' h.dvd]
    ring

/-- A magnitude has the divisors of the number. -/
theorem gcd_of_natAbs : (of a.natAbs b).gcd = (of a b).gcd := by
  rw [gcd_of, gcd_of]
  rfl

variable {a b}

/-- **Cofactors are known modulo the other argument**, once that is freed of
the divisor. -/
theorem dvd_sub_of_combination {e b₁ l r l' r' : Int} (he : e ≠ 0) (ha : e ∣ a) (hb : b = e * b₁)
    (h : a * l + b * r = e) (h' : a * l' + b * r' = e) : b₁ ∣ l - l' := by
  obtain ⟨a₁, rfl⟩ := ha
  subst hb
  have h1 : a₁ * l + b₁ * r = 1 := mul_left_cancel₀ he (by linear_combination h)
  have h1' : a₁ * l' + b₁ * r' = 1 := mul_left_cancel₀ he (by linear_combination h')
  exact ⟨l * r' - l' * r, by linear_combination l' * h1 - l * h1'⟩

end Bezout

end VerifiableDelay
