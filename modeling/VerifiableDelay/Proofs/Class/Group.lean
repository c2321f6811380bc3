import VerifiableDelay.Proofs.Class.Ideal
import Mathlib.GroupTheory.Congruence.Basic
/-!
# Classes of forms

Ideals up to factors in the order are a commutative monoid, and the class of
a form is that of its ideal. Definite forms are of one class just if they
are properly equivalent (`classOf_eq_iff`), and primitive just if their
class is invertible (`primitive_iff_isUnit`). **Composing forms multiplies
their classes** (`classOf_composite`), and so the composites of primitive
forms are primitive.
-/

namespace VerifiableDelay

variable {d : Discriminant}

/-- Ideals that differ by factors in the order. -/
def similar (d : Discriminant) : Con (Ideal (QuadraticOrder d)) where
  r I J := ∃ x y : QuadraticOrder d, x ≠ 0 ∧ y ≠ 0 ∧ Ideal.span {x} * I = Ideal.span {y} * J
  iseqv :=
    { refl := fun _ => ⟨1, 1, one_ne_zero, one_ne_zero, rfl⟩
      symm := fun ⟨x, y, hx, hy, h⟩ => ⟨y, x, hy, hx, h.symm⟩
      trans := by
        rintro I J K ⟨x, y, hx, hy, h⟩ ⟨x', y', hx', hy', h'⟩
        refine ⟨x' * x, y * y', mul_ne_zero hx' hx, mul_ne_zero hy hy', ?_⟩
        rw [← Ideal.span_singleton_mul_span_singleton, ← Ideal.span_singleton_mul_span_singleton,
          mul_assoc, h, mul_left_comm, h', mul_assoc] }
  mul' := by
    rintro I J K L ⟨x, y, hx, hy, h⟩ ⟨x', y', hx', hy', h'⟩
    refine ⟨x * x', y * y', mul_ne_zero hx hx', mul_ne_zero hy hy', ?_⟩
    rw [← Ideal.span_singleton_mul_span_singleton, ← Ideal.span_singleton_mul_span_singleton,
      mul_mul_mul_comm, h, h', mul_mul_mul_comm]

/-- **The classes** of a discriminant, which multiply as ideals do. -/
abbrev FormClass (d : Discriminant) : Type := (similar d).Quotient

namespace Form

variable {f g : Form}

/-- The class of a form. -/
def classOf (d : Discriminant) (f : Form) : FormClass d := (f.ideal d : (similar d).Quotient)

/-- **Definite forms are of one class just if they are properly
equivalent.** -/
theorem classOf_eq_iff (hf : f.Definite d.value) (hg : g.Definite d.value) :
    f.classOf d = g.classOf d ↔ f.Equivalent g := by
  rw [classOf, classOf, Con.eq]
  constructor
  · rintro ⟨x, y, hx, hy, h⟩
    exact equivalent_of_mul_ideal hf hg hx hy h
  · rintro ⟨M, rfl⟩
    obtain ⟨x, hx, h⟩ := exists_mul_ideal_substitute hf M
    refine ⟨x, f.a, hx, ?_, h⟩
    exact_mod_cast hf.leading_pos.ne'

/-- Reduction keeps the class. -/
theorem classOf_reduced (hf : f.Definite d.value) : f.reduced.classOf d = f.classOf d :=
  ((classOf_eq_iff hf (hf.reduced d.value_neg)).2 (equivalent_reduced f)).symm

/-- **Reduced forms of one class are equal.** -/
theorem eq_of_classOf_eq (hf : f.Definite d.value) (hg : g.Definite d.value)
    (hrf : f.isReduced) (hrg : g.isReduced) (h : f.classOf d = g.classOf d) : f = g := by
  rw [← reduced_of_isReduced hf.leading_pos hrf, ← reduced_of_isReduced hg.leading_pos hrg]
  exact (reduced_eq_reduced_iff d.value_neg hf hg).2 ((classOf_eq_iff hf hg).1 h)

/-- Multiplying by the root of a form stays in a multiple of its ideal, by
any common factor of the coefficients. -/
theorem root_mul_ideal_le (hf : f.Definite d.value) {t : Int} (ha : t ∣ f.a) (hb : t ∣ f.b)
    (hc : t ∣ f.c) :
    Ideal.span {f.root d} * f.ideal d ≤ Ideal.span {(t : QuadraticOrder d)} * f.ideal d := by
  obtain ⟨a, ha⟩ := ha
  obtain ⟨b, hb⟩ := hb
  obtain ⟨c, hc⟩ := hc
  have hroot := hf.root_mul_root
  have ha' : (f.a : QuadraticOrder d) = t * a := by exact_mod_cast ha
  have hb' : (f.b : QuadraticOrder d) = t * b := by exact_mod_cast hb
  have hc' : (f.c : QuadraticOrder d) = t * c := by exact_mod_cast hc
  rw [hb', hc'] at hroot
  have hmem : ∀ u v : Int, (u * f.a + v * f.root d : QuadraticOrder d) ∈ f.ideal d :=
    fun u v => hf.mem_ideal.2 ⟨u, v, rfl⟩
  conv_lhs => rw [ideal, span_singleton_mul_pair]
  rw [Ideal.span_le]
  rintro x (rfl | rfl)
  all_goals rw [SetLike.mem_coe, Ideal.mem_span_singleton_mul]
  · refine ⟨_, hmem 0 a, ?_⟩
    rw [ha']
    push_cast
    ring
  · refine ⟨_, hmem (-c) (-b), ?_⟩
    push_cast
    linear_combination -hroot

/-- The classes of a primitive form and of its opposite are inverse. -/
theorem classOf_mul_opposite (hf : f.Definite d.value) (hp : f.Primitive) :
    f.classOf d * f.opposite.classOf d = 1 := by
  have h : f.ideal d * f.opposite.ideal d = Ideal.span {(f.a : QuadraticOrder d)} :=
    ideal_mul_opposite hf hp
  rw [classOf, classOf, ← Con.coe_mul, h, ← Con.coe_one, Con.eq]
  refine ⟨1, f.a, one_ne_zero, ?_, ?_⟩
  · exact_mod_cast hf.leading_pos.ne'
  · rw [Ideal.span_singleton_one, Ideal.top_mul, mul_one]

/-- The coefficients of a form whose class is invertible have no common
factor: times the inverse ideal, the root itself would have it. -/
theorem isUnit_of_dvd (hf : f.Definite d.value) (hu : IsUnit (f.classOf d)) {t : Int}
    (ha : t ∣ f.a) (hb : t ∣ f.b) (hc : t ∣ f.c) : IsUnit t := by
  obtain ⟨K, hK⟩ := hu.exists_right_inv
  obtain ⟨J, rfl⟩ := Quotient.exists_rep K
  obtain ⟨x, y, hx, hy, hxy⟩ := (Con.eq _).1 hK
  rw [mul_one] at hxy
  have hroot : Ideal.span {f.root d} * Ideal.span {y} ≤
      Ideal.span {(t : QuadraticOrder d)} * Ideal.span {y} := by
    rw [← hxy]
    calc Ideal.span {f.root d} * (Ideal.span {x} * (f.ideal d * J))
        = Ideal.span {f.root d} * f.ideal d * (Ideal.span {x} * J) := by ring
      _ ≤ Ideal.span {(t : QuadraticOrder d)} * f.ideal d * (Ideal.span {x} * J) :=
        Ideal.mul_mono_left (root_mul_ideal_le hf ha hb hc)
      _ = Ideal.span {(t : QuadraticOrder d)} * (Ideal.span {x} * (f.ideal d * J)) := by ring
  rw [Ideal.span_singleton_mul_left_mono hy, Ideal.span_singleton_le_span_singleton] at hroot
  obtain ⟨w, hw⟩ := hroot
  have him := congrArg QuadraticAlgebra.im hw
  simp [root] at him
  exact IsUnit.of_mul_eq_one _ him.symm

/-- **A form is primitive just if its class is invertible.** -/
theorem primitive_iff_isUnit (hf : f.Definite d.value) : f.Primitive ↔ IsUnit (f.classOf d) := by
  constructor
  · intro hp
    exact IsUnit.of_mul_eq_one _ (classOf_mul_opposite hf hp)
  · intro hu
    have hbc : ((Int.gcd f.a (Int.gcd f.b f.c) : Nat) : Int) ∣ Int.gcd f.b f.c :=
      Int.gcd_dvd_right _ _
    have h := isUnit_of_dvd hf hu (Int.gcd_dvd_left f.a (Int.gcd f.b f.c))
      (hbc.trans (Int.gcd_dvd_left _ _)) (hbc.trans (Int.gcd_dvd_right _ _))
    exact Nat.isUnit_iff.1 (Int.ofNat_isUnit.1 h)

/-- Primitivity belongs to the class. -/
theorem Primitive.of_classOf_eq (hf : f.Definite d.value) (hg : g.Definite d.value)
    (hp : f.Primitive) (h : g.classOf d = f.classOf d) : g.Primitive := by
  rw [primitive_iff_isUnit hg, h]
  exact (primitive_iff_isUnit hf).1 hp

/-- The class of the neutral form is neutral. -/
theorem classOf_identity (d : Discriminant) : (identity d).classOf d = 1 := by
  have h : (identity d).ideal d = 1 := by
    rw [ideal, Ideal.one_eq_top, Ideal.eq_top_iff_one]
    exact Ideal.subset_span (by simp [identity])
  rw [classOf, h]
  rfl

theorem definite_identity (d : Discriminant) : (identity d).Definite d.value := by
  refine ⟨by simp [identity], ?_⟩
  have := d.value_mod
  simp only [identity, discriminant]
  omega

/-- **Composites written out are of the product class.** -/
theorem Concordant.classOf_direct {s m e a₁ a₂ k : Int} (h : Concordant f g s m e a₁ a₂ k)
    (hf : f.Definite d.value) (hg : g.Definite d.value) (hpf : f.Primitive) (hpg : g.Primitive) :
    (composeDirect a₁ a₂ g.b (g.c * e) k).classOf d = f.classOf d * g.classOf d := by
  rw [classOf, classOf, classOf, ← Con.coe_mul, Con.eq]
  refine ⟨e, 1, ?_, one_ne_zero, ?_⟩
  · exact_mod_cast h.factor_pos.ne'
  · rw [h.ideal_mul hf hg hpf hpg, Ideal.span_singleton_one, Ideal.top_mul]

/-- **Composing multiplies the classes.** -/
theorem classOf_composite (hf : f.Definite d.value) (hg : g.Definite d.value) (hpf : f.Primitive)
    (hpg : g.Primitive) : (composite d f g).classOf d = f.classOf d * g.classOf d := by
  have hordered : ∀ {f g : Form}, f.Definite d.value → g.Definite d.value → f.Primitive →
      g.Primitive → (composeOrdered d f g).classOf d = f.classOf d * g.classOf d := by
    intro f g hf hg hpf hpg
    obtain ⟨s, m, e, a₁, a₂, k, hconc, hequiv⟩ := exists_concordant_composeOrdered hf hg
    have hdef := hconc.definite_direct hf hg
    rw [← hconc.classOf_direct hf hg hpf hpg]
    exact ((classOf_eq_iff hdef (hdef.of_equivalent d.value_neg hequiv)).2 hequiv).symm
  rcases composite_eq d f g with h | h <;> rw [h]
  · exact hordered hf hg hpf hpg
  · rw [hordered hg hf hpg hpf, mul_comm]

/-- **Squaring squares the class.** -/
theorem classOf_duplicate (hf : f.Definite d.value) (hp : f.Primitive) :
    (duplicate d f).classOf d = f.classOf d ^ 2 := by
  rw [duplicate_eq_composite hf, classOf_composite hf hf hp hp, sq]

/-- **Composites of primitive forms are primitive.** -/
theorem Primitive.composite (hf : f.Definite d.value) (hg : g.Definite d.value) (hpf : f.Primitive)
    (hpg : g.Primitive) : (composite d f g).Primitive := by
  rw [primitive_iff_isUnit (hf.composite hg), classOf_composite hf hg hpf hpg]
  exact ((primitive_iff_isUnit hf).1 hpf).mul ((primitive_iff_isUnit hg).1 hpg)

/-- And so are their squares. -/
theorem Primitive.duplicate (hf : f.Definite d.value) (hp : f.Primitive) :
    (duplicate d f).Primitive :=
  duplicate_eq_composite hf ▸ hp.composite hf hf hp

/-- **The reduced composite** has the product class. -/
theorem classOf_compose (hf : f.Definite d.value) (hg : g.Definite d.value) (hpf : f.Primitive)
    (hpg : g.Primitive) : (compose d f g).classOf d = f.classOf d * g.classOf d := by
  rw [compose, classOf_reduced (hf.composite hg), classOf_composite hf hg hpf hpg]

end Form

end VerifiableDelay
