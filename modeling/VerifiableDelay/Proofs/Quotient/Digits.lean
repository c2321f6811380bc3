import VerifiableDelay.Quotient.Digits
import VerifiableDelay.Proofs.Euclid.Bezout
import VerifiableDelay.Proofs.Prime.Residue
import Mathlib.Algebra.BigOperators.Intervals
import Mathlib.Data.Nat.ModEq
/-!
# The digits make up the quotient

Digit `p` is `2 ^ k` times the remainder of `2 ^ (T - k * (p + 1))`, divided
by the modulus. The digits so defined add up to the quotient of `2 ^ T`
(`sum_digit`), if the modulus is larger than what is left above them. **A
walk up a column reads these digits** (`Walk.next_eq`): the remainder it
keeps is the one the digit is made of, whether or not two has an inverse.
-/

namespace VerifiableDelay

namespace Quotient

/-- The digit of a quotient at a position. -/
def digit (modulus width iterations position : Nat) : Nat :=
  2 ^ (iterations - width * (position + 1)) % modulus * 2 ^ width / modulus

/-- The digit at a position, and nothing beyond the last. -/
def digitWithin (modulus width iterations position : Nat) : Nat :=
  if width * (position + 1) ≤ iterations then digit modulus width iterations position else 0

variable {modulus width iterations position n : Nat}

theorem digit_lt (hm : 0 < modulus) : digit modulus width iterations position < 2 ^ width := by
  unfold digit
  refine Nat.div_lt_of_lt_mul ?_
  exact Nat.mul_lt_mul_of_pos_right (Nat.mod_lt _ hm) (by positivity)

/-- The quotient of a power shifted by a digit is the quotient of the power,
shifted, and that digit. -/
theorem two_pow_add_div (hm : 0 < modulus) (n width : Nat) :
    2 ^ (n + width) / modulus = 2 ^ width * (2 ^ n / modulus) + 2 ^ n % modulus * 2 ^ width / modulus := by
  have hsplit := Nat.div_add_mod (2 ^ n) modulus
  have h : 2 ^ (n + width) = 2 ^ n % modulus * 2 ^ width + modulus * (2 ^ width * (2 ^ n / modulus)) := by
    rw [pow_add]
    nth_rewrite 1 [← hsplit]
    ring
  rw [h, Nat.add_mul_div_left _ _ hm, add_comm]

/-- The lower digits, and the quotient of the power that is left. -/
theorem two_pow_div_eq_sum (hm : 0 < modulus) (hn : width * n ≤ iterations) :
    2 ^ iterations / modulus =
      ∑ p ∈ Finset.range n, digit modulus width iterations p * 2 ^ (width * p) +
        2 ^ (width * n) * (2 ^ (iterations - width * n) / modulus) := by
  induction n with
  | zero => simp
  | succ n ih =>
    have hle : width * n + width ≤ iterations := by rwa [← Nat.mul_succ]
    rw [ih (by omega), Finset.sum_range_succ, add_assoc]
    congr 1
    have hstep := two_pow_add_div hm (iterations - width * (n + 1)) width
    rw [Nat.mul_succ] at hstep
    rw [show iterations - (width * n + width) + width = iterations - width * n by omega] at hstep
    rw [hstep, digit, Nat.mul_succ, pow_add]
    ring

/-- **The digits add up to the quotient**, if the modulus is larger than a
digit can be. -/
theorem sum_digit (hwidth : 0 < width) (hm : 2 ^ width ≤ modulus) :
    ∑ p ∈ Finset.range (iterations / width), digit modulus width iterations p * 2 ^ (width * p) =
      2 ^ iterations / modulus := by
  have hpos : 0 < modulus := lt_of_lt_of_le (by positivity) hm
  have hmod := Nat.div_add_mod iterations width
  have hlt := Nat.mod_lt iterations hwidth
  rw [two_pow_div_eq_sum (n := iterations / width) hpos (Nat.mul_div_le _ _)]
  have htop : 2 ^ (iterations - width * (iterations / width)) / modulus = 0 := by
    refine Nat.div_eq_of_lt (lt_of_lt_of_le ?_ hm)
    exact Nat.pow_lt_pow_right (by omega) (by omega)
  rw [htop, mul_zero, add_zero]

/-- However many positions are looked at, from all the digits on. -/
theorem sum_digitWithin (hwidth : 0 < width) (hm : 2 ^ width ≤ modulus)
    (hn : iterations / width ≤ n) :
    ∑ p ∈ Finset.range n, digitWithin modulus width iterations p * 2 ^ (width * p) =
      2 ^ iterations / modulus := by
  have hiff : ∀ p, width * (p + 1) ≤ iterations ↔ p < iterations / width := by
    intro p
    rw [Nat.mul_comm, ← Nat.le_div_iff_mul_le hwidth, Nat.succ_le_iff]
  rw [← sum_digit hwidth hm, ← Finset.sum_subset (Finset.range_subset_range.2 hn)]
  · refine Finset.sum_congr rfl fun p hp => ?_
    rw [digitWithin, if_pos ((hiff p).2 (Finset.mem_range.1 hp))]
  · intro p _ hp
    rw [digitWithin, if_neg fun h => hp (Finset.mem_range.2 ((hiff p).1 h)), zero_mul]

/-- A remainder gives a digit, at widths below that of a word. -/
theorem digit?_eq {remainder : Nat} (hr : remainder < modulus) (hwidth : width ≤ 63) :
    digit? modulus width remainder = some (remainder * 2 ^ width / modulus) := by
  have hlt : remainder * 2 ^ width / modulus < 2 ^ width :=
    Nat.div_lt_of_lt_mul (Nat.mul_lt_mul_of_pos_right hr (by positivity))
  have hword : 2 ^ width ≤ 2 ^ 63 := Nat.pow_le_pow_right (by omega) hwidth
  refine if_pos ⟨?_, .inr hlt⟩
  unfold wordCount
  norm_num at hword ⊢
  omega

/-- **A digit taken afresh** is the one at its position. -/
theorem digitAt_eq (hm : 0 < modulus) (hwidth : width ≤ 63)
    (hle : width * (position + 1) ≤ iterations) :
    digitAt modulus width iterations position = .ok (digit modulus width iterations position) := by
  rw [digitAt, Nat.mul_comm, if_neg (by omega), if_neg hm.ne', powMod_eq,
    digit?_eq (Nat.mod_lt _ hm) hwidth]
  rfl

namespace Walk

variable {parameters : Parameters} {w : Walk}

/-- What an inverse is. -/
theorem inverseOf_eq_some {i : Nat} (hm : 0 < modulus) (h : inverseOf modulus n = some i) :
    n * i % modulus = 1 % modulus := by
  unfold inverseOf at h
  simp only at h
  split at h
  · rename_i hgcd
    have hbez := Bezout.left_add_right n modulus
    rw [hgcd] at hbez
    have hi : (i : Int) = (Bezout.of n modulus).left % modulus := by
      rw [← Option.some_inj.1 h]
      exact Int.toNat_of_nonneg (Int.emod_nonneg _ (by omega))
    have hmod : ((n * i : Nat) : Int) % modulus = (1 : Nat) % modulus := by
      rw [Nat.cast_mul, hi, Int.mul_emod, Int.emod_emod_of_dvd _ dvd_rfl, ← Int.mul_emod, Nat.cast_one,
        ← hbez, Int.add_mul_emod_self_left]
    exact_mod_cast hmod
  · cases h

/-- **The walk is at a position** of the quotient: where two has an inverse,
its remainder is the one that the digit there is made of, if there is one. -/
structure At (modulus : Nat) (parameters : Parameters) (iterations position : Nat) (w : Walk) :
    Prop where
  modulus_eq : w.modulus = modulus
  parameters_eq : w.parameters = parameters
  iterations_eq : w.iterations = iterations
  inverse_eq : ∀ i, w.inverse = some i → 2 ^ parameters.stride * i % modulus = 1 % modulus
  remainder_eq : w.inverse.isSome → parameters.width * (position + 1) ≤ iterations →
    w.remainder = 2 ^ (iterations - parameters.width * (position + 1)) % modulus

/-- A walk is at the foot of the column it is started on. -/
theorem at_startColumn (hm : 0 < modulus) (parameters : Parameters) (iterations column : Nat) :
    At modulus parameters iterations column
      ((ofQuotient modulus parameters iterations).startColumn column) where
  modulus_eq := rfl
  parameters_eq := rfl
  iterations_eq := rfl
  inverse_eq := by
    intro i h
    simp only [startColumn, ofQuotient] at h
    split at h
    · have := inverseOf_eq_some hm h
      rwa [powMod_eq, Nat.mod_mul_mod] at this
    · cases h
  remainder_eq := by
    intro hsome hle
    rw [Nat.mul_comm] at hle
    simp only [startColumn] at hsome ⊢
    rw [if_pos ⟨hsome, hle⟩, powMod_eq, Nat.mul_comm]
    rfl

/-- **A step of the walk** reads the digit at its position and goes up one
row of the column. -/
theorem At.next (h : At modulus parameters iterations position w) (hm : 0 < modulus)
    (hwidth : parameters.width ≤ 63) (hle : parameters.width * (position + 1) ≤ iterations) :
    (w.next position).1 = .ok (digit modulus parameters.width iterations position) ∧
      At modulus parameters iterations (position + parameters.columns) (w.next position).2 := by
  have hafresh : w.afresh position = .ok (digit modulus parameters.width iterations position) := by
    rw [afresh, h.modulus_eq, h.parameters_eq, h.iterations_eq]
    exact digitAt_eq hm hwidth hle
  unfold Walk.next
  cases hinverse : w.inverse with
  | none =>
    refine ⟨hafresh, h.modulus_eq, h.parameters_eq, h.iterations_eq, h.inverse_eq, ?_⟩
    intro hsome
    rw [hinverse] at hsome
    cases hsome
  | some i =>
    have hrem := h.remainder_eq (by rw [hinverse]; rfl) hle
    have hdigit : digit? w.modulus w.parameters.width w.remainder =
        some (digit modulus parameters.width iterations position) := by
      rw [h.modulus_eq, h.parameters_eq, hrem, digit?_eq (Nat.mod_lt _ hm) hwidth]
      rfl
    simp only [hdigit]
    refine ⟨trivial, h.modulus_eq, h.parameters_eq, h.iterations_eq, ?_, ?_⟩
    · exact fun j hj => h.inverse_eq j (hinverse.trans hj)
    intro _ hnext
    -- the exponent falls by the stride, and the inverse takes that power off
    have hstride : parameters.width * (position + parameters.columns + 1) =
        parameters.width * (position + 1) + parameters.stride := by
      unfold Parameters.stride
      ring
    rw [hstride] at hnext ⊢
    have hsplit : 2 ^ (iterations - parameters.width * (position + 1)) =
        2 ^ (iterations - (parameters.width * (position + 1) + parameters.stride)) *
          2 ^ parameters.stride := by
      rw [← pow_add]
      congr 1
      omega
    rw [h.modulus_eq, hrem, Nat.mod_mul_mod, hsplit, Nat.mul_assoc, Nat.mul_mod,
      h.inverse_eq i hinverse, ← Nat.mul_mod, Nat.mul_one]

/-! A column is walked by its rows, from the first of them up. -/

theorem at_firstRow (hm : 0 < modulus) (parameters : Parameters) (iterations column : Nat) :
    At modulus parameters iterations (0 * parameters.columns + column)
      ((ofQuotient modulus parameters iterations).startColumn column) := by
  rw [Nat.zero_mul, Nat.zero_add]
  exact at_startColumn hm parameters iterations column

theorem At.next_row {row column : Nat}
    (h : At modulus parameters iterations (row * parameters.columns + column) w)
    (hm : 0 < modulus) (hwidth : parameters.width ≤ 63)
    (hle : parameters.width * (row * parameters.columns + column + 1) ≤ iterations) :
    (w.next (row * parameters.columns + column)).1 =
        .ok (digit modulus parameters.width iterations (row * parameters.columns + column)) ∧
      At modulus parameters iterations ((row + 1) * parameters.columns + column)
        (w.next (row * parameters.columns + column)).2 := by
  obtain ⟨hdigit, hnext⟩ := h.next hm hwidth hle
  rw [Nat.add_right_comm, ← Nat.succ_mul] at hnext
  exact ⟨hdigit, hnext⟩

end Walk

end Quotient

end VerifiableDelay
