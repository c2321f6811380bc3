import VerifiableDelay.Form.Basic
import Mathlib.Tactic.LinearCombination
import Mathlib.Tactic.Linarith
import Mathlib.Tactic.Ring
/-!
# Proper equivalence

Two forms are properly equivalent if one becomes the other under an
integral substitution of determinant one. A swap and a shift are such
substitutions, so normalizing and reducing a form keep it in its class.
A class shares its discriminant, and the forms of a class of negative
discriminant begin with the values that any one of them takes.
-/

namespace VerifiableDelay

/-- An integral substitution of determinant one: `x` becomes `p * x + q * y`
and `y` becomes `r * x + s * y`. -/
structure Unimodular where
  p : Int
  q : Int
  r : Int
  s : Int
  det_eq : p * s - q * r = 1

namespace Unimodular

/-- One substitution after another. -/
def comp (M N : Unimodular) : Unimodular where
  p := M.p * N.p + M.q * N.r
  q := M.p * N.q + M.q * N.s
  r := M.r * N.p + M.s * N.r
  s := M.r * N.q + M.s * N.s
  det_eq := by linear_combination (N.p * N.s - N.q * N.r) * M.det_eq + N.det_eq

/-- The substitution that undoes another. -/
def inv (M : Unimodular) : Unimodular where
  p := M.s
  q := -M.q
  r := -M.r
  s := M.p
  det_eq := by linear_combination M.det_eq

end Unimodular

namespace Form

variable {f g h : Form}

/-- What a form comes to at two integers. -/
def value (f : Form) (x y : Int) : Int := f.a * x * x + f.b * x * y + f.c * y * y

/-- The form after a substitution. -/
def substitute (f : Form) (M : Unimodular) : Form where
  a := f.value M.p M.r
  b := 2 * f.a * M.p * M.q + f.b * (M.p * M.s + M.q * M.r) + 2 * f.c * M.r * M.s
  c := f.value M.q M.s

/-- **Proper equivalence**: `g` is `f` after a substitution of determinant
one. -/
def Equivalent (f g : Form) : Prop := ∃ M : Unimodular, g = f.substitute M

theorem substitute_comp (f : Form) (M N : Unimodular) :
    f.substitute (M.comp N) = (f.substitute M).substitute N := by
  simp only [substitute, value, Unimodular.comp, Form.mk.injEq]
  refine ⟨?_, ?_, ?_⟩ <;> ring

/-- A substitution undone is no substitution. -/
theorem substitute_inv (f : Form) (M : Unimodular) : (f.substitute M).substitute M.inv = f := by
  obtain ⟨a, b, c⟩ := f
  obtain ⟨p, q, r, s, h⟩ := M
  simp only [substitute, value, Unimodular.inv, Form.mk.injEq]
  refine ⟨?_, ?_, ?_⟩
  · linear_combination a * (p * s - q * r + 1) * h
  · linear_combination b * (p * s - q * r + 1) * h
  · linear_combination c * (p * s - q * r + 1) * h

/-- **A substitution keeps the discriminant.** -/
theorem discriminant_substitute (f : Form) (M : Unimodular) :
    (f.substitute M).discriminant = f.discriminant := by
  obtain ⟨a, b, c⟩ := f
  obtain ⟨p, q, r, s, h⟩ := M
  simp only [substitute, value, discriminant]
  linear_combination (b * b - 4 * (a * c)) * (p * s - q * r + 1) * h

/-- A swap is a substitution. -/
theorem equivalent_swap (f : Form) : f.Equivalent f.swap := by
  refine ⟨⟨0, 1, -1, 0, by norm_num⟩, ?_⟩
  simp [substitute, value, swap]

/-- So is a shift. -/
theorem equivalent_shift (f : Form) (r : Int) : f.Equivalent (f.shift r) := by
  refine ⟨⟨1, r, 0, 1, by norm_num⟩, ?_⟩
  simp only [substitute, value, shift, Form.mk.injEq]
  refine ⟨?_, ?_, ?_⟩ <;> ring

namespace Equivalent

/-- A shift by nothing changes nothing. -/
@[refl] theorem refl (f : Form) : f.Equivalent f := by
  have h := equivalent_shift f 0
  rwa [shift_zero] at h

theorem symm (hfg : f.Equivalent g) : g.Equivalent f := by
  obtain ⟨M, rfl⟩ := hfg
  exact ⟨M.inv, (substitute_inv f M).symm⟩

theorem trans (hfg : f.Equivalent g) (hgh : g.Equivalent h) : f.Equivalent h := by
  obtain ⟨M, rfl⟩ := hfg
  obtain ⟨N, rfl⟩ := hgh
  exact ⟨M.comp N, (substitute_comp f M N).symm⟩

theorem discriminant_eq (hfg : f.Equivalent g) : g.discriminant = f.discriminant := by
  obtain ⟨M, rfl⟩ := hfg
  exact discriminant_substitute f M

end Equivalent

/-- Normalizing stays in the class. -/
theorem equivalent_normalize (f : Form) : f.Equivalent f.normalize := by
  unfold normalize
  split
  · exact .refl f
  · exact equivalent_shift f _

/-- The loop of reduction stays in the class, however long it runs. -/
theorem equivalent_settle (fuel : Nat) (f : Form) : f.Equivalent (f.settle fuel) := by
  induction fuel generalizing f with
  | zero => exact .refl f
  | succ fuel ih =>
    unfold settle
    split
    · exact .refl f
    · exact ((equivalent_swap f).trans (equivalent_normalize _)).trans (ih _)

/-- **Reduction stays in the class.** -/
theorem equivalent_reduced (f : Form) : f.Equivalent f.reduced :=
  (equivalent_normalize f).trans (equivalent_settle _ _)

/-- **Positive definite of a discriminant**: what every operation on forms
is given and gives. -/
structure Definite (D : Int) (f : Form) : Prop where
  leading_pos : 0 < f.a
  discriminant_eq : f.discriminant = D

/-- Four times the leading coefficient times a value is a sum of two
squares, the second weighted with minus the discriminant. -/
theorem four_mul_a_mul_value (f : Form) (x y : Int) :
    4 * f.a * f.value x y = (2 * f.a * x + f.b * y) ^ 2 - f.discriminant * y ^ 2 := by
  simp only [value, discriminant]
  ring

namespace Definite

variable {D : Int}

/-- The other outer coefficient is positive too. -/
theorem c_pos (hf : f.Definite D) (hD : D < 0) : 0 < f.c := by
  have ha := hf.leading_pos
  have hd := hf.discriminant_eq
  simp only [discriminant] at hd
  have hac : 0 < f.a * f.c := by nlinarith [mul_self_nonneg f.b]
  exact (mul_pos_iff_of_pos_left ha).1 hac

/-- **The values are positive**, but for the one at nothing. -/
theorem value_pos (hf : f.Definite D) (hD : D < 0) {x y : Int} (h : x ≠ 0 ∨ y ≠ 0) :
    0 < f.value x y := by
  have ha := hf.leading_pos
  have hv := four_mul_a_mul_value f x y
  rw [hf.discriminant_eq] at hv
  suffices 0 < 4 * f.a * f.value x y by
    exact (mul_pos_iff_of_pos_left (by omega)).1 this
  rw [hv]
  by_cases hy : y = 0
  · have hx : x ≠ 0 := by
      rcases h with h | h
      · exact h
      · exact absurd hy h
    subst hy
    have : 2 * f.a * x ≠ 0 := mul_ne_zero (by omega) hx
    have := sq_pos_of_ne_zero this
    nlinarith
  · have := sq_pos_of_ne_zero hy
    nlinarith [sq_nonneg (2 * f.a * x + f.b * y)]

/-- **Definiteness belongs to the class.** -/
theorem of_equivalent (hf : f.Definite D) (hD : D < 0) (hfg : f.Equivalent g) :
    g.Definite D := by
  refine ⟨?_, hfg.discriminant_eq.trans hf.discriminant_eq⟩
  obtain ⟨M, rfl⟩ := hfg
  refine hf.value_pos hD ?_
  by_contra h
  push Not at h
  have := M.det_eq
  rw [h.1, h.2] at this
  omega

/-- Reduction keeps it. -/
theorem reduced (hf : f.Definite D) (hD : D < 0) : f.reduced.Definite D :=
  hf.of_equivalent hD (equivalent_reduced f)

/-- The first two coefficients determine the third. -/
theorem eq_of_leading (hf : f.Definite D) (hg : g.Definite D) (ha : f.a = g.a) (hb : f.b = g.b) :
    f = g := by
  have h := hf.discriminant_eq.trans hg.discriminant_eq.symm
  have hne := hg.leading_pos.ne'
  obtain ⟨a, b, c⟩ := f
  obtain ⟨a', b', c'⟩ := g
  simp only at ha hb hne
  subst ha hb
  simp only [discriminant] at h
  have hc : a * c = a * c' := by linarith
  rw [mul_left_cancel₀ hne hc]

end Definite

end Form

end VerifiableDelay
