import VerifiableDelay.Proofs.Class.Order
import VerifiableDelay.Proofs.Form.Composition
import Mathlib.Algebra.Squarefree.Basic
/-!
# Ideals of forms

Properly equivalent forms have ideals that differ by a factor in the order
(`exists_mul_ideal_substitute`), and forms whose ideals so differ are
properly equivalent (`equivalent_of_mul_ideal`): the areas keep the
orientation. For a primitive form the opposite one spans the inverse ideal,
up to the leading coefficient. Of concordant primitive forms **the ideals
multiply to the ideal of the composite**, up to the common factor.
-/

namespace VerifiableDelay

namespace Form

open QuadraticOrder

variable {d : Discriminant} {f g h : Form}

/-- The form with the middle coefficient negated. -/
def opposite (f : Form) : Form := ⟨f.a, -f.b, f.c⟩

/-- **Primitive**: the coefficients have no common factor. -/
def Primitive (f : Form) : Prop := Int.gcd f.a (Int.gcd f.b f.c) = 1

instance (f : Form) : Decidable f.Primitive := inferInstanceAs (Decidable (_ = _))

theorem Definite.opposite (hf : f.Definite d.value) : f.opposite.Definite d.value := by
  refine ⟨hf.leading_pos, ?_⟩
  rw [← hf.discriminant_eq]
  simp only [Form.opposite, discriminant]
  ring

theorem Primitive.opposite (hf : f.Primitive) : f.opposite.Primitive := by
  rw [Primitive] at hf ⊢
  simpa [Form.opposite] using hf

/-- The coefficients of a primitive form combine to one. -/
theorem Primitive.exists_combination (hf : f.Primitive) :
    ∃ x y z : Int, x * f.a + y * f.b + z * f.c = 1 := by
  have h1 := Int.gcd_eq_gcd_ab f.a (Int.gcd f.b f.c)
  have h2 := Int.gcd_eq_gcd_ab f.b f.c
  rw [hf] at h1
  push_cast at h1
  generalize Int.gcdA f.a (Int.gcd f.b f.c) = u at h1
  generalize Int.gcdB f.a (Int.gcd f.b f.c) = v at h1
  refine ⟨u, v * Int.gcdA f.b f.c, v * Int.gcdB f.b f.c, ?_⟩
  linear_combination -h1 - v * h2

/-- **Where the discriminant is squarefree every form is primitive**: a
common factor divides it twice. -/
theorem Primitive.of_squarefree (h : Squarefree f.discriminant) : f.Primitive := by
  have hbc : ((Int.gcd f.a (Int.gcd f.b f.c) : Nat) : Int) ∣ Int.gcd f.b f.c := Int.gcd_dvd_right _ _
  have ha := Int.gcd_dvd_left f.a (Int.gcd f.b f.c)
  have hb := hbc.trans (Int.gcd_dvd_left f.b f.c)
  have hc := hbc.trans (Int.gcd_dvd_right f.b f.c)
  have hunit := h _ (dvd_sub (mul_dvd_mul hb hb) ((mul_dvd_mul ha hc).mul_left 4))
  exact Nat.isUnit_iff.1 (Int.ofNat_isUnit.1 hunit)

/-- Two pairs that are integral combinations of each other span the same
ideal. -/
theorem span_pair_eq {x y x' y' : QuadraticOrder d} (p q r s p' q' r' s' : Int)
    (hx : x = p * x' + q * y') (hy : y = r * x' + s * y')
    (hx' : x' = p' * x + q' * y) (hy' : y' = r' * x + s' * y) :
    Ideal.span {x, y} = Ideal.span {x', y'} := by
  apply le_antisymm
  · rw [Ideal.span_le, Set.pair_subset_iff]
    exact ⟨Ideal.mem_span_pair.2 ⟨p, q, hx.symm⟩, Ideal.mem_span_pair.2 ⟨r, s, hy.symm⟩⟩
  · rw [Ideal.span_le, Set.pair_subset_iff]
    exact ⟨Ideal.mem_span_pair.2 ⟨p', q', hx'.symm⟩, Ideal.mem_span_pair.2 ⟨r', s', hy'.symm⟩⟩

theorem span_singleton_mul_pair (x y z : QuadraticOrder d) :
    Ideal.span {x} * Ideal.span {y, z} = Ideal.span {x * y, x * z} := by
  rw [Ideal.span_mul_span', Set.singleton_mul, Set.image_pair]

/-- **A substitution multiplies the ideal** by an element of the order, up
to the leading coefficient. -/
theorem exists_mul_ideal_substitute (hf : f.Definite d.value) (M : Unimodular) :
    ∃ x : QuadraticOrder d, x ≠ 0 ∧
      Ideal.span {x} * f.ideal d = Ideal.span {(f.a : QuadraticOrder d)} * (f.substitute M).ideal d := by
  obtain ⟨p, q, r, s, hdet⟩ := M
  have hroot := hf.root_mul_root
  have hdet' : (p * s - q * r : QuadraticOrder d) = 1 := by exact_mod_cast hdet
  set x : QuadraticOrder d := f.a * p + f.b * r + r * f.root d with hx
  refine ⟨x, ?_, ?_⟩
  · intro h
    have him := congrArg QuadraticAlgebra.im h
    have hre := congrArg QuadraticAlgebra.re h
    simp [hx, root] at him hre
    have ha := hf.leading_pos.ne'
    simp [him, ha] at hre hdet
    simp [hre] at hdet
  · have hroot' := root_eq_add (d := d) (f := f.substitute ⟨p, q, r, s, hdet⟩) (g := f)
      (n := f.a * p * q + f.b * q * r + f.c * r * s)
      (by simp only [substitute]; linear_combination f.b * hdet)
    have ha' : ((f.substitute ⟨p, q, r, s, hdet⟩).a : QuadraticOrder d) =
        f.a * p * p + f.b * p * r + f.c * r * r := by
      simp only [substitute, value]
      push_cast
      ring
    have hxr : x * f.root d = f.a * (p * f.root d - r * f.c) := by
      rw [hx]
      linear_combination r * hroot
    rw [ideal, ideal, span_singleton_mul_pair, mul_comm x, hxr, ← span_singleton_mul_pair]
    push_cast at hroot'
    congr 1
    -- the matrix of the substitution takes one basis to the other
    refine span_pair_eq s r q p p (-r) (-q) s ?_ ?_ ?_ ?_
    · rw [ha', hx]
      linear_combination r * hroot' - (f.a * p + f.b * r) * hdet'
    · rw [ha']
      linear_combination p * hroot' + f.c * r * hdet'
    · rw [ha', hx]
      push_cast
      ring
    · rw [hx]
      push_cast
      linear_combination -hroot' - f.root d * hdet'

/-- Where a multiple of one ideal lies in a multiple of the other, the basis
of the one is integral in that of the other: its determinant compares the
norms of the factors, and values of the one form are values of the other. -/
theorem exists_coordinates (hf : f.Definite d.value) (hg : g.Definite d.value)
    {x y : QuadraticOrder d}
    (h : Ideal.span {x} * f.ideal d ≤ Ideal.span {y} * g.ideal d) :
    ∃ u v u' v' : Int, x.norm * f.a = y.norm * g.a * (u * v' - v * u') ∧
      ∀ m n, x.norm * f.a * f.value m (-n) =
        y.norm * g.a * g.value (u * m + u' * n) (-(v * m + v' * n)) := by
  rw [Ideal.span_singleton_mul_le_span_singleton_mul] at h
  obtain ⟨z, hz, hxa⟩ := h f.a (hf.mem_ideal.2 ⟨1, 0, by simp⟩)
  obtain ⟨z', hz', hxr⟩ := h (f.root d) (hf.mem_ideal.2 ⟨0, 1, by simp⟩)
  obtain ⟨u, v, rfl⟩ := hg.mem_ideal.1 hz
  obtain ⟨u', v', rfl⟩ := hg.mem_ideal.1 hz'
  refine ⟨u, v, u', v', ?_, ?_⟩
  · have harea := congrArg₂ area hxa hxr
    rw [area_mul, area_mul, area_basis] at harea
    have hone : area (f.a : QuadraticOrder d) (f.root d) = f.a := by simp [area, root]
    rw [hone] at harea
    linear_combination harea
  · intro m n
    have hsum : x * (m * f.a + n * f.root d) =
        y * ((u * m + u' * n : Int) * g.a + (v * m + v' * n : Int) * g.root d) := by
      push_cast
      linear_combination m * hxa + n * hxr
    have hnorm := congrArg QuadraticAlgebra.norm hsum
    rw [map_mul, map_mul, hf.norm_basis, hg.norm_basis] at hnorm
    linear_combination hnorm

/-- **Forms whose ideals differ by a factor are properly equivalent.** -/
theorem equivalent_of_mul_ideal (hf : f.Definite d.value) (hg : g.Definite d.value)
    {x y : QuadraticOrder d} (hx : x ≠ 0) (hy : y ≠ 0)
    (h : Ideal.span {x} * f.ideal d = Ideal.span {y} * g.ideal d) : f.Equivalent g := by
  obtain ⟨u, v, u', v', hdet, hvalue⟩ := exists_coordinates hf hg h.le
  obtain ⟨_, _, _, _, hdet', -⟩ := exists_coordinates hg hf h.ge
  have hA := mul_pos (norm_pos hx) hf.leading_pos
  have hB := mul_pos (norm_pos hy) hg.leading_pos
  generalize x.norm * f.a = A at *
  generalize y.norm * g.a = B at *
  -- each scale is a positive multiple of the other, so they are one
  have hle : ∀ {A B δ : Int}, 0 < A → 0 < B → B = A * δ → A ≤ B := by
    intro A B δ hA hB hδ
    rw [hδ] at hB ⊢
    exact le_mul_of_one_le_right hA.le ((mul_pos_iff_of_pos_left hA).1 hB)
  have hAB : A = B := le_antisymm (hle hA hB hdet') (hle hB hA hdet)
  subst hAB
  have hone : u * v' - v * u' = 1 := by
    refine mul_left_cancel₀ hA.ne' ?_
    rw [← hdet, mul_one]
  have hval : ∀ m n, f.value m (-n) = g.value (u * m + u' * n) (-(v * m + v' * n)) :=
    fun m n => mul_left_cancel₀ hA.ne' (hvalue m n)
  have h10 := hval 1 0
  have h01 := hval 0 1
  have h11 := hval 1 1
  simp only [value] at h10 h01 h11
  refine Equivalent.symm ⟨⟨u, -u', -v, v', by linear_combination hone⟩, ?_⟩
  obtain ⟨a, b, c⟩ := f
  simp only [substitute, value, Form.mk.injEq] at h10 h01 h11 ⊢
  refine ⟨by linear_combination h10, by linear_combination h10 + h01 - h11, by linear_combination h01⟩

/-- The ideals of a form and its opposite multiply into the leading
coefficient. -/
theorem ideal_mul_opposite_le (hf : f.Definite d.value) :
    f.ideal d * f.opposite.ideal d ≤ Ideal.span {(f.a : QuadraticOrder d)} := by
  have hroot := hf.root_mul_root
  have hopp : f.opposite.root d = f.root d + f.b := root_eq_add (by simp only [opposite]; ring)
  rw [ideal, ideal, Ideal.span_pair_mul_span_pair, Ideal.span_le, hopp]
  rintro x (rfl | rfl | rfl | rfl)
  all_goals rw [SetLike.mem_coe, Ideal.mem_span_singleton']
  · exact ⟨f.a, rfl⟩
  · exact ⟨f.root d + f.b, mul_comm _ _⟩
  · exact ⟨f.root d, rfl⟩
  · exact ⟨-f.c, by linear_combination -hroot⟩

/-- **For a primitive form they multiply to all of it.** -/
theorem ideal_mul_opposite (hf : f.Definite d.value) (hp : f.Primitive) :
    f.ideal d * f.opposite.ideal d = Ideal.span {(f.a : QuadraticOrder d)} := by
  refine le_antisymm (ideal_mul_opposite_le hf) ?_
  have hroot := hf.root_mul_root
  have hopp : f.opposite.root d = f.root d + f.b := root_eq_add (by simp only [opposite]; ring)
  obtain ⟨x, y, z, hxyz⟩ := hp.exists_combination
  rw [Ideal.span_singleton_le_iff_mem]
  have hone : (x * f.a + y * f.b + z * f.c : QuadraticOrder d) = 1 := by exact_mod_cast hxyz
  have ha : (f.a : QuadraticOrder d) ∈ f.ideal d := Ideal.subset_span (by simp)
  have hr : f.root d ∈ f.ideal d := Ideal.subset_span (by simp)
  have ha' : (f.a : QuadraticOrder d) ∈ f.opposite.ideal d := Ideal.subset_span (by simp [opposite])
  have hr' : f.root d + f.b ∈ f.opposite.ideal d := hopp ▸ Ideal.subset_span (by simp)
  have h : (f.a : QuadraticOrder d) = x * (f.a * f.a) +
      y * (f.a * (f.root d + f.b) - f.root d * f.a) - z * (f.root d * (f.root d + f.b)) := by
    linear_combination (-f.a) * hone + z * hroot
  rw [h]
  refine sub_mem (add_mem ?_ ?_) ?_
  · exact Ideal.mul_mem_left _ _ (Ideal.mul_mem_mul ha ha')
  · exact Ideal.mul_mem_left _ _ (sub_mem (Ideal.mul_mem_mul ha hr') (Ideal.mul_mem_mul hr ha'))
  · exact Ideal.mul_mem_left _ _ (Ideal.mul_mem_mul hr hr')

namespace Concordant

variable {s m e a₁ a₂ k : Int}

/-- The opposite forms are concordant by the opposite numbers. -/
theorem opposite (h : Concordant f g s m e a₁ a₂ k) :
    Concordant f.opposite g.opposite (-s) (-m) e a₁ a₂ (-k) where
  half_sum := by
    have := h.half_sum
    simp only [Form.opposite]
    omega
  half_difference := by
    have := h.half_difference
    simp only [Form.opposite]
    omega
  factor_pos := h.factor_pos
  left_eq := h.left_eq
  right_eq := h.right_eq
  factor_dvd := h.factor_dvd.neg_right
  dvd_difference := by
    have := h.dvd_difference.neg_right
    rwa [neg_sub', ← mul_neg] at this
  dvd_sum := by
    rw [neg_mul_neg]
    exact h.dvd_sum

/-- Their composite written out is the opposite one. -/
theorem opposite_direct :
    composeDirect a₁ a₂ g.opposite.b (g.opposite.c * e) (-k) =
      (composeDirect a₁ a₂ g.b (g.c * e) k).opposite := by
  simp only [composeDirect, Form.opposite, Form.mk.injEq, true_and]
  refine ⟨by ring, ?_⟩
  congr 1
  ring

/-- **The ideals multiply into that of the composite**, times the common
factor. -/
theorem ideal_mul_le (h : Concordant f g s m e a₁ a₂ k) (hf : f.Definite d.value)
    (hg : g.Definite d.value) :
    f.ideal d * g.ideal d ≤
      Ideal.span {(e : QuadraticOrder d)} * (composeDirect a₁ a₂ g.b (g.c * e) k).ideal d := by
  obtain ⟨u, hu⟩ := h.dvd_difference
  obtain ⟨v, hv⟩ := h.dvd_sum
  obtain ⟨t, ht⟩ := h.factor_dvd
  have hdef := h.definite_direct hf hg
  have hroot := hdef.root_mul_root
  rw [h.direct_eq (h.left_pos hf).ne' hu (v := e * v) (by linear_combination hv)] at hroot hdef ⊢
  set w : Form := ⟨a₂ * a₁, 2 * (a₂ * k) + g.b, u * k + e * v⟩ with hw
  have hrg : g.root d = w.root d + (a₂ * k : Int) := root_eq_add (by simp only [hw]; ring)
  have hrf : f.root d = w.root d + (a₁ * u : Int) := by
    refine root_eq_add ?_
    have := h.half_difference
    simp only [hw]
    omega
  have hfa : (f.a : QuadraticOrder d) = e * a₁ := by exact_mod_cast h.left_eq
  have hga : (g.a : QuadraticOrder d) = e * a₂ := by exact_mod_cast h.right_eq
  have hs : (a₁ * u - a₂ * k - g.b : QuadraticOrder d) = -(e * t) := by
    have := h.b_eq
    have : a₁ * u - a₂ * k - g.b = -(e * t) := by omega
    exact_mod_cast this
  simp only [hw] at hroot
  push_cast at hroot hrf hrg
  have hmem : ∀ p q : Int, (p * w.a + q * w.root d : QuadraticOrder d) ∈ w.ideal d :=
    fun p q => hdef.mem_ideal.2 ⟨p, q, rfl⟩
  have hwa : (w.a : QuadraticOrder d) = a₂ * a₁ := by simp [hw]
  rw [ideal, ideal, Ideal.span_pair_mul_span_pair, Ideal.span_le]
  rintro x (rfl | rfl | rfl | rfl)
  all_goals rw [SetLike.mem_coe, Ideal.mem_span_singleton_mul]
  · refine ⟨_, hmem e 0, ?_⟩
    rw [hfa, hga, hwa]
    push_cast
    ring
  · refine ⟨_, hmem k a₁, ?_⟩
    rw [hfa, hrg, hwa]
    ring
  · refine ⟨_, hmem u a₂, ?_⟩
    rw [hga, hrf, hwa]
    ring
  · refine ⟨_, hmem (-v) (-t), ?_⟩
    rw [hrf, hrg, hwa]
    push_cast
    linear_combination -hroot - w.root d * hs

/-- **For primitive forms they multiply to all of it.** -/
theorem ideal_mul (h : Concordant f g s m e a₁ a₂ k) (hf : f.Definite d.value)
    (hg : g.Definite d.value) (hpf : f.Primitive) (hpg : g.Primitive) :
    f.ideal d * g.ideal d =
      Ideal.span {(e : QuadraticOrder d)} * (composeDirect a₁ a₂ g.b (g.c * e) k).ideal d := by
  refine le_antisymm (h.ideal_mul_le hf hg) ?_
  have hdef := h.definite_direct hf hg
  have hopp := h.opposite.ideal_mul_le hf.opposite hg.opposite
  rw [opposite_direct] at hopp
  set w := composeDirect a₁ a₂ g.b (g.c * e) k with hw
  set E : Ideal (QuadraticOrder d) := Ideal.span {(e : QuadraticOrder d)} with hE
  have hnorm : Ideal.span {(f.a : QuadraticOrder d)} * Ideal.span {(g.a : QuadraticOrder d)} =
      E * E * Ideal.span {(w.a : QuadraticOrder d)} := by
    rw [hE, Ideal.span_singleton_mul_span_singleton, Ideal.span_singleton_mul_span_singleton,
      Ideal.span_singleton_mul_span_singleton, hw, h.left_eq, h.right_eq]
    simp only [composeDirect]
    push_cast
    congr 2
    ring
  have hne : (f.a * g.a : QuadraticOrder d) ≠ 0 := by
    have := mul_ne_zero hf.leading_pos.ne' hg.leading_pos.ne'
    exact_mod_cast this
  rw [← Ideal.span_singleton_mul_right_mono hne, ← Ideal.span_singleton_mul_span_singleton]
  -- times the two leading coefficients, through the opposite forms
  calc Ideal.span {(f.a : QuadraticOrder d)} * Ideal.span {(g.a : QuadraticOrder d)} *
        (E * w.ideal d)
      = f.ideal d * g.ideal d * (f.opposite.ideal d * g.opposite.ideal d) * (E * w.ideal d) := by
        rw [← ideal_mul_opposite hf hpf, ← ideal_mul_opposite hg hpg]
        ring
    _ ≤ f.ideal d * g.ideal d * (E * w.opposite.ideal d) * (E * w.ideal d) := by
        gcongr
    _ = f.ideal d * g.ideal d * (E * E * (w.ideal d * w.opposite.ideal d)) := by ring
    _ ≤ f.ideal d * g.ideal d * (E * E * Ideal.span {(w.a : QuadraticOrder d)}) := by
        gcongr
        exact ideal_mul_opposite_le hdef
    _ = Ideal.span {(f.a : QuadraticOrder d)} * Ideal.span {(g.a : QuadraticOrder d)} *
        (f.ideal d * g.ideal d) := by
        rw [← hnorm]
        ring

end Concordant

end Form

end VerifiableDelay
