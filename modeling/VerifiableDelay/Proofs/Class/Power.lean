import VerifiableDelay.Proofs.Class.Group
/-!
# Forms of a class

What an operation on forms gives is known by its class. A form `Represents`
a class if it is definite, primitive and of that class; each operation takes
forms that represent classes to one that represents their product or power,
however often it reduces on the way, and a reduced form is the one that does
(`eq_of_represents`).
-/

namespace VerifiableDelay

namespace Form

variable {d : Discriminant} {f g acc base : Form} {c e : FormClass d}

/-! ## Definite forms

Whatever the discriminant, and whether or not the forms are primitive. -/

theorem Definite.compose (hf : f.Definite d.value) (hg : g.Definite d.value) :
    (compose d f g).Definite d.value := (hf.composite hg).reduced d.value_neg

theorem Definite.trim (hf : f.Definite d.value) : (trim d f).Definite d.value := by
  unfold Form.trim
  split
  · exact hf.reduced d.value_neg
  · exact hf

/-- The loop of the power keeps to definite forms. -/
theorem Definite.powFrom (hacc : acc.Definite d.value) (hbase : base.Definite d.value) (n : Nat) :
    (powFrom d acc base n).Definite d.value := by
  induction n using Nat.strong_induction_on generalizing acc base with
  | h n ih =>
    unfold Form.powFrom
    split
    · exact hacc
    · have hbit : (if n % 2 = 1 then Form.trim d (Form.composite d acc base) else acc).Definite
          d.value := by
        split
        · exact (hacc.composite hbase).trim
        · exact hacc
      simp only
      split
      · exact hbit
      · exact ih (n / 2) (by omega) hbit hbase.duplicate.trim

/-- **Powers of definite forms are definite.** -/
theorem Definite.pow (hf : f.Definite d.value) (n : Nat) : (f.pow d n).Definite d.value :=
  ((definite_identity d).powFrom hf n).reduced d.value_neg

/-! ## Forms that stand for their class -/

/-- A primitive form of a class. -/
structure Represents (d : Discriminant) (f : Form) (c : FormClass d) : Prop where
  definite : f.Definite d.value
  primitive : f.Primitive
  classOf_eq : f.classOf d = c

/-- **The reduced form of a class is one.** -/
theorem eq_of_represents (hf : Represents d f c) (hg : Represents d g c)
    (hrf : f.isReduced = true) (hrg : g.isReduced = true) : f = g :=
  eq_of_classOf_eq hf.definite hg.definite hrf hrg (hf.classOf_eq.trans hg.classOf_eq.symm)

/-- Whatever forms of a class are given, they reduce to one. -/
theorem reduced_eq_of_represents (hf : Represents d f c) (hg : Represents d g c) :
    f.reduced = g.reduced :=
  (reduced_eq_reduced_iff d.value_neg hf.definite hg.definite).2
    ((classOf_eq_iff hf.definite hg.definite).1 (hf.classOf_eq.trans hg.classOf_eq.symm))

namespace Represents

/-- **Where the discriminant is squarefree every form stands for its
class.** -/
theorem of_squarefree (hd : Squarefree d.value) (hf : f.Definite d.value) :
    Represents d f (f.classOf d) :=
  ⟨hf, .of_squarefree (hf.discriminant_eq.symm ▸ hd), rfl⟩

theorem identity (d : Discriminant) : Represents d (identity d) 1 where
  definite := definite_identity d
  primitive := by simp [Primitive, Form.identity]
  classOf_eq := classOf_identity d

theorem isReduced_reduced (hf : Represents d f c) : f.reduced.isReduced = true :=
  hf.definite.isReduced_reduced d.value_neg

/-- **The forms that stand for a class are those equivalent to one.** -/
theorem of_equivalent (hf : Represents d f c) (h : f.Equivalent g) : Represents d g c := by
  have hg := hf.definite.of_equivalent d.value_neg h
  have hclass : g.classOf d = f.classOf d := ((classOf_eq_iff hf.definite hg).2 h).symm
  exact ⟨hg, hf.primitive.of_classOf_eq hf.definite hg hclass, hclass.trans hf.classOf_eq⟩

/-- Reduction stays in the class. -/
theorem reduced (hf : Represents d f c) : Represents d f.reduced c :=
  hf.of_equivalent (equivalent_reduced f)

/-- And so does reduction of what has grown. -/
theorem trim (hf : Represents d f c) : Represents d (trim d f) c := by
  unfold Form.trim
  split
  · exact hf.reduced
  · exact hf

/-- **Composites are of the product class.** -/
theorem composite (hf : Represents d f c) (hg : Represents d g e) :
    Represents d (composite d f g) (c * e) where
  definite := hf.definite.composite hg.definite
  primitive := hf.primitive.composite hf.definite hg.definite hg.primitive
  classOf_eq := by
    rw [classOf_composite hf.definite hg.definite hf.primitive hg.primitive, hf.classOf_eq,
      hg.classOf_eq]

theorem compose (hf : Represents d f c) (hg : Represents d g e) :
    Represents d (compose d f g) (c * e) := (hf.composite hg).reduced

theorem duplicate (hf : Represents d f c) : Represents d (duplicate d f) (c ^ 2) where
  definite := hf.definite.duplicate
  primitive := hf.primitive.duplicate hf.definite
  classOf_eq := by rw [classOf_duplicate hf.definite hf.primitive, hf.classOf_eq]

theorem square (hf : Represents d f c) : Represents d (square d f) (c ^ 2) := hf.duplicate.reduced

/-- **Squaring again and again** raises the class to a power of two. -/
theorem squareTimes (hf : Represents d f c) (n : Nat) :
    Represents d (squareTimes d n f) (c ^ 2 ^ n) := by
  induction n generalizing f c with
  | zero => simpa [Form.squareTimes] using hf
  | succ n ih =>
    rw [Form.squareTimes, pow_succ', pow_mul]
    exact ih hf.square

/-- **The loop of the power** multiplies by the power of the base, at
whatever sizes it reduces. -/
theorem powFrom (hacc : Represents d acc c) (hbase : Represents d base e) (n : Nat) :
    Represents d (powFrom d acc base n) (c * e ^ n) := by
  induction n using Nat.strong_induction_on generalizing acc base c e with
  | h n ih =>
    unfold Form.powFrom
    split
    · rename_i hn
      subst hn
      simpa using hacc
    · rename_i hn
      have hbit : Represents d (if n % 2 = 1 then Form.trim d (Form.composite d acc base) else acc)
          (c * e ^ (n % 2)) := by
        rcases Nat.mod_two_eq_zero_or_one n with h | h
        · simpa [h] using hacc
        · simpa [h] using (hacc.composite hbase).trim
      have hsplit := Nat.mod_add_div n 2
      simp only
      split
      · rename_i hhalf
        rw [hhalf] at hsplit
        rw [show n = n % 2 by omega]
        simpa using hbit
      · have h := ih (n / 2) (by omega) hbit hbase.duplicate.trim
        rw [← pow_mul, mul_assoc, ← pow_add, hsplit] at h
        exact h

/-- **The power** is of the power of the class. -/
theorem pow (hf : Represents d f c) (n : Nat) : Represents d (f.pow d n) (c ^ n) := by
  have h := ((identity d).powFrom hf n).reduced
  rwa [one_mul] at h

end Represents

end Form

end VerifiableDelay
