import Mathlib.Tactic.LinearCombination
import Mathlib.Tactic.Linarith
import Mathlib.Tactic.Ring
/-!
# Descent — what steps of Euclid's algorithm come to

A run of division steps is a matrix of nonnegative integers of determinant
one or minus one, which takes the remainders it ends at back to those it
began with. The steps of a window are found on the leading digits of two
remainders only. **A certified descent is one of the integers too**
(`Descent.Leads.lift`): where the digits left over cannot bring the lower
remainder down to zero or up to the upper one, the same matrix leads from the
whole remainders to two that are in order.
-/

namespace VerifiableDelay

/-- The matrix with rows `(s, q)` and `(r, p)` that a run of division steps
comes to. -/
structure Descent where
  s : Int
  q : Int
  r : Int
  p : Int
  sign : Int
  s_nonneg : 0 ≤ s
  q_nonneg : 0 ≤ q
  r_nonneg : 0 ≤ r
  p_nonneg : 0 ≤ p
  det_eq : p * s - q * r = sign
  sign_eq : sign = 1 ∨ sign = -1

namespace Descent

/-- No step. -/
def start : Descent where
  s := 1
  q := 0
  r := 0
  p := 1
  sign := 1
  s_nonneg := by norm_num
  q_nonneg := by norm_num
  r_nonneg := by norm_num
  p_nonneg := by norm_num
  det_eq := by norm_num
  sign_eq := .inl rfl

/-- One division with the given quotient. -/
def division (quotient : Int) (h : 0 ≤ quotient) : Descent where
  s := quotient
  q := 1
  r := 1
  p := 0
  sign := -1
  s_nonneg := h
  q_nonneg := by norm_num
  r_nonneg := by norm_num
  p_nonneg := by norm_num
  det_eq := by ring
  sign_eq := .inr rfl

/-- The steps of one descent, then those of another. -/
def comp (m n : Descent) : Descent where
  s := m.s * n.s + m.q * n.r
  q := m.s * n.q + m.q * n.p
  r := m.r * n.s + m.p * n.r
  p := m.r * n.q + m.p * n.p
  sign := m.sign * n.sign
  s_nonneg := add_nonneg (mul_nonneg m.s_nonneg n.s_nonneg) (mul_nonneg m.q_nonneg n.r_nonneg)
  q_nonneg := add_nonneg (mul_nonneg m.s_nonneg n.q_nonneg) (mul_nonneg m.q_nonneg n.p_nonneg)
  r_nonneg := add_nonneg (mul_nonneg m.r_nonneg n.s_nonneg) (mul_nonneg m.p_nonneg n.r_nonneg)
  p_nonneg := add_nonneg (mul_nonneg m.r_nonneg n.q_nonneg) (mul_nonneg m.p_nonneg n.p_nonneg)
  det_eq := by rw [← m.det_eq, ← n.det_eq]; ring
  sign_eq := by
    rcases m.sign_eq with h | h <;> rcases n.sign_eq with h' | h' <;> simp [h, h']

variable {m n : Descent} {u l u' l' u'' l'' quotient : Int}

/-! One division more. -/

@[simp] theorem comp_division_s (hq : 0 ≤ quotient) :
    (m.comp (division quotient hq)).s = m.s * quotient + m.q := by
  simp [comp, division]

@[simp] theorem comp_division_q (hq : 0 ≤ quotient) :
    (m.comp (division quotient hq)).q = m.s := by
  simp [comp, division]

@[simp] theorem comp_division_r (hq : 0 ≤ quotient) :
    (m.comp (division quotient hq)).r = m.r * quotient + m.p := by
  simp [comp, division]

@[simp] theorem comp_division_p (hq : 0 ≤ quotient) :
    (m.comp (division quotient hq)).p = m.r := by
  simp [comp, division]

@[simp] theorem comp_division_sign (hq : 0 ≤ quotient) :
    (m.comp (division quotient hq)).sign = -m.sign := by
  simp [comp, division]

@[simp] theorem sign_mul_sign (m : Descent) : m.sign * m.sign = 1 := by
  rcases m.sign_eq with h | h <;> simp [h]

/-- No row of the matrix is zero, for its determinant is not, so after a
division by no less than one both leading entries count. -/
theorem comp_division_pos (hq : 0 ≤ quotient) (hq1 : 1 ≤ quotient) :
    0 < (m.comp (division quotient hq)).r ∧ 0 < (m.comp (division quotient hq)).s := by
  have hrow : ∀ {a b : Int}, 0 ≤ a → 0 ≤ b → ¬ (a = 0 ∧ b = 0) → 0 < a * quotient + b := by
    intro a b ha hb hne
    have hmul := le_mul_of_one_le_right ha hq1
    omega
  have hdet := m.det_eq
  have hsign := m.sign_eq
  rw [comp_division_r, comp_division_s]
  constructor
  · refine hrow m.r_nonneg m.p_nonneg ?_
    rintro ⟨hr, hp⟩
    rw [hr, hp] at hdet
    omega
  · refine hrow m.s_nonneg m.q_nonneg ?_
    rintro ⟨hs, hq⟩
    rw [hs, hq] at hdet
    omega

/-- The remainders `u` and `l` come down to `u'` and `l'`. -/
structure Leads (m : Descent) (u l u' l' : Int) : Prop where
  upper : u = m.s * u' + m.q * l'
  lower : l = m.r * u' + m.p * l'

theorem leads_start (u l : Int) : start.Leads u l u l := ⟨by simp [start], by simp [start]⟩

theorem Leads.comp (h : m.Leads u l u' l') (h' : n.Leads u' l' u'' l'') :
    (m.comp n).Leads u l u'' l'' := by
  refine ⟨?_, ?_⟩
  · rw [h.upper, h'.upper, h'.lower, Descent.comp]
    ring
  · rw [h.lower, h'.upper, h'.lower, Descent.comp]
    ring

/-- A division leads to the divisor and the remainder. -/
theorem leads_division (hq : 0 ≤ quotient) (u l : Int) :
    (division quotient hq).Leads u l l (u - quotient * l) :=
  ⟨by simp [division], by simp [division]⟩

/-- Where the steps lead, from where they begin. -/
theorem Leads.upper_eq (h : m.Leads u l u' l') : u' = m.sign * (m.p * u - m.q * l) := by
  rw [h.upper, h.lower]
  linear_combination (-u') * m.sign_mul_sign - (m.sign * u') * m.det_eq

theorem Leads.lower_eq (h : m.Leads u l u' l') : l' = m.sign * (m.s * l - m.r * u) := by
  rw [h.upper, h.lower]
  linear_combination (-l') * m.sign_mul_sign - (m.sign * l') * m.det_eq

/-- And every pair of remainders leads somewhere. -/
theorem leads_of_eq (hu : u' = m.sign * (m.p * u - m.q * l))
    (hl : l' = m.sign * (m.s * l - m.r * u)) : m.Leads u l u' l' := by
  subst hu hl
  refine ⟨?_, ?_⟩
  · linear_combination (-u) * m.sign_mul_sign - (m.sign * u) * m.det_eq
  · linear_combination (-l) * m.sign_mul_sign - (m.sign * l) * m.det_eq

/-- What the steps begin with bounds the leading entries, as long as the
upper remainder is not zero. -/
theorem Leads.s_le (h : m.Leads u l u' l') (hu' : 0 < u') (hl' : 0 ≤ l') : m.s ≤ u := by
  have h1 := mul_nonneg m.q_nonneg hl'
  have h2 := le_mul_of_one_le_right m.s_nonneg (show 1 ≤ u' by omega)
  linarith [h.upper]

theorem Leads.r_le (h : m.Leads u l u' l') (hu' : 0 < u') (hl' : 0 ≤ l') : m.r ≤ l := by
  have h1 := mul_nonneg m.p_nonneg hl'
  have h2 := le_mul_of_one_le_right m.r_nonneg (show 1 ≤ u' by omega)
  linarith [h.lower]

/-- And both entries of a row together, as long as neither remainder is. -/
theorem Leads.s_add_q_le (h : m.Leads u l u' l') (hu' : 0 < u') (hl' : 0 < l') :
    m.s + m.q ≤ u := by
  have h1 := le_mul_of_one_le_right m.s_nonneg (show 1 ≤ u' by omega)
  have h2 := le_mul_of_one_le_right m.q_nonneg (show 1 ≤ l' by omega)
  linarith [h.upper]

theorem Leads.r_add_p_le (h : m.Leads u l u' l') (hu' : 0 < u') (hl' : 0 < l') :
    m.r + m.p ≤ l := by
  have h1 := le_mul_of_one_le_right m.r_nonneg (show 1 ≤ u' by omega)
  have h2 := le_mul_of_one_le_right m.p_nonneg (show 1 ≤ l' by omega)
  linarith [h.lower]

/-- **The cofactor of the upper remainder counts**, if the remainders began
in order and end in order. -/
theorem Leads.s_pos (h : m.Leads u l u' l') (hlu : l ≤ u) (hl' : 0 ≤ l') (hlu' : l' < u') :
    0 < m.s := by
  rcases m.s_nonneg.lt_or_eq with hs | hs
  · exact hs
  · -- without it the two remainders would have changed places
    have hdet := m.det_eq
    rw [← hs, mul_zero, zero_sub] at hdet
    have hq := m.q_nonneg
    have hr := m.r_nonneg
    have hqr : m.q * m.r = 1 := by
      rcases m.sign_eq with h1 | h1
      · have := mul_nonneg hq hr
        omega
      · omega
    have hq1 : m.q = 1 := Int.eq_one_of_mul_eq_one_right hq hqr
    have hr1 : m.r = 1 := by rwa [hq1, one_mul] at hqr
    have hup := h.upper
    have hlow := h.lower
    rw [← hs, hq1] at hup
    rw [hr1] at hlow
    have := mul_nonneg m.p_nonneg hl'
    omega

/-- What makes sure that a descent found on leading digits is one of the
integers, at the digits `u` and `l` it ends at. -/
def Certifies (m : Descent) (u l : Int) : Prop :=
  (m.sign = 1 → m.r ≤ l ∧ m.s + m.q ≤ u - l) ∧ (m.sign = -1 → m.s ≤ l ∧ m.r + m.p ≤ u - l)

/-! A certified descent is one of the integers too: `x` and `y` are the digits
below those it was found on. -/

section Lift

variable {N x y : Int}

/-- The lower remainder is positive. -/
theorem Leads.lift_pos (h : m.Leads u l u' l') (hc : m.Certifies u' l') (hs : 0 < m.s)
    (hr : 0 < m.r) (hx : 0 ≤ x) (hxN : x < N) (hy : 0 ≤ y) (hyN : y < N) :
    0 < m.sign * (m.s * (N * l + y) - m.r * (N * u + x)) := by
  have heq : m.sign * (m.s * (N * l + y) - m.r * (N * u + x)) =
      N * l' + m.sign * (m.s * y - m.r * x) := by
    rw [h.lower_eq]
    ring
  have hN : 0 ≤ N := by linarith
  rw [heq]
  rcases m.sign_eq with h1 | h1
  · obtain ⟨hrl, -⟩ := hc.1 h1
    rw [h1]
    have hdigits := mul_lt_mul_of_pos_left hxN hr
    have hword := mul_le_mul_of_nonneg_left hrl hN
    linarith [mul_nonneg hs.le hy]
  · obtain ⟨hsl, -⟩ := hc.2 h1
    rw [h1]
    have hdigits := mul_lt_mul_of_pos_left hyN hs
    have hword := mul_le_mul_of_nonneg_left hsl hN
    linarith [mul_nonneg hr.le hx]

/-- It is below the upper one. -/
theorem Leads.lift_lt (h : m.Leads u l u' l') (hc : m.Certifies u' l') (hs : 0 < m.s)
    (hr : 0 < m.r) (hx : 0 ≤ x) (hxN : x < N) (hy : 0 ≤ y) (hyN : y < N) :
    m.sign * (m.s * (N * l + y) - m.r * (N * u + x)) <
      m.sign * (m.p * (N * u + x) - m.q * (N * l + y)) := by
  have heq : m.sign * (m.p * (N * u + x) - m.q * (N * l + y)) -
      m.sign * (m.s * (N * l + y) - m.r * (N * u + x)) =
      N * (u' - l') + m.sign * ((m.p + m.r) * x - (m.q + m.s) * y) := by
    rw [h.upper_eq, h.lower_eq]
    ring
  suffices 0 < N * (u' - l') + m.sign * ((m.p + m.r) * x - (m.q + m.s) * y) by linarith
  have hp := m.p_nonneg
  have hq := m.q_nonneg
  rcases m.sign_eq with h1 | h1
  · obtain ⟨-, hsq⟩ := hc.1 h1
    rw [h1]
    nlinarith [mul_le_mul_of_nonneg_left (Int.le_sub_one_of_lt hyN)
      (add_pos_of_nonneg_of_pos hq hs).le, mul_nonneg (add_nonneg hp hr.le) hx]
  · obtain ⟨-, hrp⟩ := hc.2 h1
    rw [h1]
    nlinarith [mul_le_mul_of_nonneg_left (Int.le_sub_one_of_lt hxN)
      (add_pos_of_nonneg_of_pos hp hr).le, mul_nonneg (add_nonneg hq hs.le) hy]

/-- The upper one is above the lower of the digits it ends at, filled up with
zeros. -/
theorem Leads.lift_upper (h : m.Leads u l u' l') (hc : m.Certifies u' l') (hs : 0 < m.s)
    (hr : 0 < m.r) (hx : 0 ≤ x) (hxN : x < N) (hy : 0 ≤ y) (hyN : y < N) :
    N * l' < m.sign * (m.p * (N * u + x) - m.q * (N * l + y)) := by
  have heq : m.sign * (m.p * (N * u + x) - m.q * (N * l + y)) =
      N * u' + m.sign * (m.p * x - m.q * y) := by
    rw [h.upper_eq]
    ring
  have hN : 0 < N := by linarith
  rw [heq]
  rcases m.sign_eq with h1 | h1
  · obtain ⟨-, hsq⟩ := hc.1 h1
    rw [h1]
    have hdigits := mul_le_mul_of_nonneg_left hyN.le m.q_nonneg
    have hword := mul_le_mul_of_nonneg_left hsq hN.le
    linarith [mul_nonneg m.p_nonneg hx, mul_pos hN hs]
  · obtain ⟨-, hrp⟩ := hc.2 h1
    rw [h1]
    have hdigits := mul_le_mul_of_nonneg_left hxN.le m.p_nonneg
    have hword := mul_le_mul_of_nonneg_left hrp hN.le
    linarith [mul_nonneg m.q_nonneg hy, mul_pos hN hr]

/-- **A certified descent is one of the integers too**, to remainders in order. -/
theorem Leads.lift (h : m.Leads u l u' l') (hc : m.Certifies u' l') (hs : 0 < m.s) (hr : 0 < m.r)
    (hx : 0 ≤ x) (hxN : x < N) (hy : 0 ≤ y) (hyN : y < N) :
    ∃ U' L', m.Leads (N * u + x) (N * l + y) U' L' ∧ 0 < L' ∧ L' < U' ∧ N * l' < U' :=
  ⟨_, _, leads_of_eq rfl rfl, h.lift_pos hc hs hr hx hxN hy hyN, h.lift_lt hc hs hr hx hxN hy hyN,
    h.lift_upper hc hs hr hx hxN hy hyN⟩

end Lift

end Descent

end VerifiableDelay
