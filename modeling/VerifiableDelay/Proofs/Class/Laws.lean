import VerifiableDelay.Proofs.Class.Group
/-!
# The group of reduced primitive forms

The reduced primitive forms of a discriminant stand for the invertible
classes, one for each. Composing two of them gives the one of the product
class, so what holds of classes holds of forms as equalities of
coefficients: **they are an abelian group** (`compose_abelian_group`),
whichever branches the compositions take.
-/

namespace VerifiableDelay

namespace Form

variable {d : Discriminant} {f g h : Form}

/-- The reduced primitive forms of a discriminant, the elements of its class
group. -/
structure Canonical (d : Discriminant) (f : Form) : Prop where
  isReduced : f.isReduced
  discriminant_eq : f.discriminant = d.value
  primitive : f.Primitive

namespace Canonical

theorem definite (hf : Canonical d f) : f.Definite d.value :=
  definite_of_isReduced d.value_neg hf.isReduced hf.discriminant_eq

/-- Canonical forms of one class are equal. -/
theorem eq_of_classOf_eq (hf : Canonical d f) (hg : Canonical d g)
    (h : f.classOf d = g.classOf d) : f = g :=
  Form.eq_of_classOf_eq hf.definite hg.definite hf.isReduced hg.isReduced h

/-- Reducing a primitive form makes it canonical. -/
theorem of_reduced (hf : f.Definite d.value) (hp : f.Primitive) : Canonical d f.reduced where
  isReduced := hf.isReduced_reduced d.value_neg
  discriminant_eq := (hf.reduced d.value_neg).discriminant_eq
  primitive := hp.of_classOf_eq hf (hf.reduced d.value_neg) (classOf_reduced hf)

/-- **Composition stays among the canonical forms.** -/
theorem compose (hf : Canonical d f) (hg : Canonical d g) : Canonical d (compose d f g) :=
  .of_reduced (hf.definite.composite hg.definite)
    (hf.primitive.composite hf.definite hg.definite hg.primitive)

theorem classOf_compose (hf : Canonical d f) (hg : Canonical d g) :
    (Form.compose d f g).classOf d = f.classOf d * g.classOf d :=
  Form.classOf_compose hf.definite hg.definite hf.primitive hg.primitive

/-- Inversion stays among them too. -/
theorem inverse (hf : Canonical d f) : Canonical d f.inverse :=
  .of_reduced hf.definite.opposite hf.primitive.opposite

theorem classOf_mul_inverse (hf : Canonical d f) : f.classOf d * f.inverse.classOf d = 1 := by
  have h : f.inverse.classOf d = f.opposite.classOf d := classOf_reduced hf.definite.opposite
  rw [h, classOf_mul_opposite hf.definite hf.primitive]

/-- The neutral form is one of them. -/
theorem identity (d : Discriminant) : Canonical d (identity d) where
  isReduced := by
    have := d.value_neg
    have := d.value_mod
    rw [isReduced_iff]
    simp only [Form.identity]
    omega
  discriminant_eq := (definite_identity d).discriminant_eq
  primitive := by simp [Primitive, Form.identity]

end Canonical

/-- **The reduced primitive forms are an abelian group** under composition:
it stays among them, as the neutral form and the inverses do, and its laws
are equalities of coefficients. -/
theorem compose_abelian_group (hf : Canonical d f) (hg : Canonical d g) (hh : Canonical d h) :
    Canonical d (compose d f g) ∧
      compose d f g = compose d g f ∧
      compose d (compose d f g) h = compose d f (compose d g h) ∧
      (Canonical d (identity d) ∧ compose d f (identity d) = f) ∧
      (Canonical d f.inverse ∧ compose d f f.inverse = identity d) := by
  have hid := Canonical.identity d
  have hcomm : compose d f g = compose d g f := by
    refine (hf.compose hg).eq_of_classOf_eq (hg.compose hf) ?_
    rw [hf.classOf_compose hg, hg.classOf_compose hf, mul_comm]
  have hassoc : compose d (compose d f g) h = compose d f (compose d g h) := by
    refine ((hf.compose hg).compose hh).eq_of_classOf_eq (hf.compose (hg.compose hh)) ?_
    rw [(hf.compose hg).classOf_compose hh, hf.classOf_compose hg,
      hf.classOf_compose (hg.compose hh), hg.classOf_compose hh, mul_assoc]
  have hone : compose d f (identity d) = f := by
    refine (hf.compose hid).eq_of_classOf_eq hf ?_
    rw [hf.classOf_compose hid, classOf_identity, mul_one]
  have hinv : compose d f f.inverse = identity d := by
    refine (hf.compose hf.inverse).eq_of_classOf_eq hid ?_
    rw [hf.classOf_compose hf.inverse, hf.classOf_mul_inverse, classOf_identity]
  exact ⟨hf.compose hg, hcomm, hassoc, ⟨hid, hone⟩, hf.inverse, hinv⟩

/-- The discriminant `-47`, of class number five. -/
def discriminant47 : Discriminant := { value := -47, value_neg := by decide, value_mod := by decide }

/-- The laws at three forms of discriminant `-47`. -/
theorem compose_abelian_group_47 :
    (Canonical discriminant47 ⟨2, 1, 6⟩ ∧ Canonical discriminant47 ⟨3, 1, 4⟩ ∧
      Canonical discriminant47 ⟨3, -1, 4⟩) ∧
    compose discriminant47 (compose discriminant47 ⟨2, 1, 6⟩ ⟨3, 1, 4⟩) ⟨3, -1, 4⟩ =
      compose discriminant47 ⟨2, 1, 6⟩ (compose discriminant47 ⟨3, 1, 4⟩ ⟨3, -1, 4⟩) := by
  have hf : Canonical discriminant47 ⟨2, 1, 6⟩ := ⟨by decide, by decide, by decide⟩
  have hg : Canonical discriminant47 ⟨3, 1, 4⟩ := ⟨by decide, by decide, by decide⟩
  have hh : Canonical discriminant47 ⟨3, -1, 4⟩ := ⟨by decide, by decide, by decide⟩
  exact ⟨⟨hf, hg, hh⟩, (compose_abelian_group hf hg hh).2.2.1⟩

end Form

end VerifiableDelay
