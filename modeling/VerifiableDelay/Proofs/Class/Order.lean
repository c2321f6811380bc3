import VerifiableDelay.Proofs.Form.Substitution
import Mathlib.Algebra.QuadraticAlgebra.Basic
import Mathlib.RingTheory.Ideal.Operations
/-!
# The order of a discriminant

The integers together with half of one plus the root of the discriminant
form a ring, the order of the discriminant. Its norm is positive but at
zero, so it has no zero divisors. A form has a root in it, and spans an
ideal with its leading coefficient and that root, of which the two are a
basis (`mem_ideal`): the elements of the ideal are the values of the form.
-/

namespace VerifiableDelay

/-- The order of a discriminant: integers with an element whose square is
that element plus a quarter of the discriminant less one. -/
abbrev QuadraticOrder (d : Discriminant) : Type := QuadraticAlgebra Int ((d.value - 1) / 4) 1

variable {d : Discriminant} {f g : Form}

theorem Discriminant.four_mul_quarter (d : Discriminant) :
    4 * ((d.value - 1) / 4) = d.value - 1 := by
  have := d.value_mod
  omega

namespace QuadraticOrder

/-- Four times the norm is a sum of squares, the second weighted with minus
the discriminant. -/
theorem four_mul_norm (z : QuadraticOrder d) :
    4 * z.norm = (2 * z.re + z.im) ^ 2 - d.value * z.im ^ 2 := by
  rw [QuadraticAlgebra.norm_def]
  linear_combination (-z.im ^ 2) * d.four_mul_quarter

/-- **The norm is positive**, but for that of zero. -/
theorem norm_pos {z : QuadraticOrder d} (hz : z ≠ 0) : 0 < z.norm := by
  have hD := d.value_neg
  have hnorm := four_mul_norm z
  by_cases him : z.im = 0
  · have hre : z.re ≠ 0 := by
      intro hre
      exact hz (QuadraticAlgebra.ext hre him)
    have := sq_pos_of_ne_zero hre
    rw [him] at hnorm
    nlinarith
  · have := sq_pos_of_ne_zero him
    nlinarith [sq_nonneg (2 * z.re + z.im)]

instance : NoZeroDivisors (QuadraticOrder d) where
  eq_zero_or_eq_zero_of_mul_eq_zero {x y} h := by
    by_contra hxy
    push Not at hxy
    have := mul_pos (norm_pos hxy.1) (norm_pos hxy.2)
    rw [← map_mul, h, QuadraticAlgebra.norm_zero] at this
    exact lt_irrefl 0 this

instance : Nontrivial (QuadraticOrder d) :=
  ⟨0, 1, fun h => zero_ne_one (congrArg QuadraticAlgebra.re h)⟩

instance : IsDomain (QuadraticOrder d) := NoZeroDivisors.to_isDomain _

/-- The determinant of the coordinates of two elements. -/
def area (x y : QuadraticOrder d) : Int := x.re * y.im - x.im * y.re

/-- A common factor multiplies the area by its norm. -/
theorem area_mul (z x y : QuadraticOrder d) : area (z * x) (z * y) = z.norm * area x y := by
  simp only [area, QuadraticAlgebra.norm_def, QuadraticAlgebra.re_mul, QuadraticAlgebra.im_mul]
  ring

end QuadraticOrder

namespace Form

open QuadraticOrder

/-- The root of a form: half of the root of the discriminant less the
middle coefficient. -/
def root (d : Discriminant) (f : Form) : QuadraticOrder d := ⟨-((f.b + 1) / 2), 1⟩

/-- The ideal that the leading coefficient and the root of a form span. -/
def ideal (d : Discriminant) (f : Form) : Ideal (QuadraticOrder d) :=
  Ideal.span {(f.a : QuadraticOrder d), f.root d}

/-- The middle coefficient is odd, as the discriminant is. -/
theorem Definite.b_odd (hf : f.Definite d.value) : 2 * ((f.b + 1) / 2) = f.b + 1 := by
  have h := d.value_mod
  rw [← hf.discriminant_eq, discriminant] at h
  rcases Int.emod_two_eq_zero_or_one f.b with hb | hb
  · obtain ⟨k, hk⟩ := Int.dvd_of_emod_eq_zero hb
    rw [hk] at h
    have : 2 * k * (2 * k) - 4 * (f.a * f.c) = 2 * (2 * (k * k - f.a * f.c)) := by ring
    omega
  · omega

/-- The product of the outer coefficients, from the middle one. -/
theorem Definite.outer_eq (hf : f.Definite d.value) :
    f.a * f.c = (f.b + 1) / 2 * ((f.b + 1) / 2) - (f.b + 1) / 2 - (d.value - 1) / 4 := by
  have hb : f.b = 2 * ((f.b + 1) / 2) - 1 := by
    have := hf.b_odd
    omega
  have hq := d.four_mul_quarter
  have hd := hf.discriminant_eq
  simp only [discriminant] at hd
  have h4 : 4 * (f.a * f.c) = f.b * f.b - d.value := by linarith
  set β := (f.b + 1) / 2
  rw [hb] at h4
  linarith

/-- **The equation of the root**: its square is minus the middle coefficient
times it, less the product of the outer ones. -/
theorem Definite.root_mul_root (hf : f.Definite d.value) :
    f.root d * f.root d = -(f.b : QuadraticOrder d) * f.root d - f.a * f.c := by
  have hb := hf.b_odd
  have hac := hf.outer_eq
  ext
  · simp [root, hac]
    linear_combination ((f.b + 1) / 2) * hb
  · simp [root]
    linarith

/-- Forms that differ in their middle coefficient by twice an integer have
roots that differ by that integer. -/
theorem root_eq_add {n : Int} (h : f.b = g.b + 2 * n) :
    g.root d = f.root d + n := by
  ext
  · simp [root, h]
    omega
  · simp [root]

/-- One and the root are a basis of the order. -/
theorem exists_eq_add_root (f : Form) (x : QuadraticOrder d) :
    ∃ u v : Int, x = u + v * f.root d := by
  refine ⟨x.re + x.im * ((f.b + 1) / 2), x.im, ?_⟩
  ext
  · simp [root]
  · simp [root]

/-- **The leading coefficient and the root are a basis** of the ideal. -/
theorem Definite.mem_ideal (hf : f.Definite d.value) {x : QuadraticOrder d} :
    x ∈ f.ideal d ↔ ∃ u v : Int, x = u * f.a + v * f.root d := by
  rw [ideal, Ideal.mem_span_pair]
  constructor
  · rintro ⟨y, z, rfl⟩
    have hroot := hf.root_mul_root
    obtain ⟨y₀, y₁, rfl⟩ := exists_eq_add_root f y
    obtain ⟨z₀, z₁, rfl⟩ := exists_eq_add_root f z
    refine ⟨y₀ - z₁ * f.c, y₁ * f.a + z₀ - z₁ * f.b, ?_⟩
    push_cast
    linear_combination (z₁ : QuadraticOrder d) * hroot
  · rintro ⟨u, v, rfl⟩
    exact ⟨u, v, rfl⟩

/-- The norm of an element of the ideal is the leading coefficient times a
value of the form. -/
theorem Definite.norm_basis (hf : f.Definite d.value) (u v : Int) :
    (u * f.a + v * f.root d : QuadraticOrder d).norm = f.a * f.value u (-v) := by
  have hb := hf.b_odd
  have hac := hf.outer_eq
  simp [QuadraticAlgebra.norm_def, root, value]
  linear_combination (-(u * f.a * v)) * hb - v ^ 2 * hac

/-- The area of two elements of the ideal is the leading coefficient times
the determinant of their coordinates in the basis. -/
theorem area_basis (u v u' v' : Int) :
    area (u * f.a + v * f.root d : QuadraticOrder d) (u' * f.a + v' * f.root d) =
      f.a * (u * v' - v * u') := by
  simp [area, root]
  ring

end Form

end VerifiableDelay
