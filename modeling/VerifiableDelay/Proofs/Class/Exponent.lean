import VerifiableDelay.Proofs.Class.Laws
import VerifiableDelay.Proofs.Class.Power
import Mathlib.Logic.Function.Iterate
/-!
# Powers

The power goes along the bits of the exponent with two forms that are reduced
only once they have outgrown the discriminant, so what these forms are depends
on where that happens. Their classes do not, and what is returned is the
reduced form of a class. **It is what composing with the reduced base gives,
as often as the exponent counts** (`pow_is_iterated_composition`), and so the
laws of exponents hold of it as equalities of coefficients.
-/

namespace VerifiableDelay

namespace Form

variable {d : Discriminant} {f g x : Form} {c e : FormClass d}

/-- The power is a reduced form. -/
theorem Represents.isReduced_pow (hx : Represents d x c) (n : Nat) :
    (x.pow d n).isReduced = true :=
  ((definite_identity d).powFrom hx.definite n).isReduced_reduced d.value_neg

/-- **Whatever reduced form is of the power of the class is the power.** -/
theorem Represents.pow_eq (hx : Represents d x c) {n : Nat} (hf : Represents d f (c ^ n))
    (hr : f.isReduced = true) : x.pow d n = f :=
  eq_of_represents (hx.pow n) hf (hx.isReduced_pow n) hr

/-- Composing with a form multiplies its class in, as often as that is done. -/
theorem Represents.iterate_compose (hf : Represents d f c) (hg : Represents d g e) (n : Nat) :
    Represents d ((fun acc => Form.compose d acc g)^[n] f) (c * e ^ n) := by
  induction n with
  | zero => simpa using hf
  | succ n ih =>
    rw [Function.iterate_succ_apply', pow_succ, ← mul_assoc]
    exact ih.compose hg

/-- And it gives reduced forms, if it starts from one. -/
theorem Represents.isReduced_iterate_compose (hf : Represents d f c) (hg : Represents d g e)
    (hr : f.isReduced = true) (n : Nat) :
    ((fun acc => Form.compose d acc g)^[n] f).isReduced = true := by
  cases n with
  | zero => exact hr
  | succ n =>
    rw [Function.iterate_succ_apply']
    exact ((hf.iterate_compose hg n).composite hg).isReduced_reduced

/-- **The power is plain exponentiation.** For a primitive definite form,
reduced or not, and any exponent it is the neutral form composed that many
times with the reduced form of the base. So exponents add where powers are
composed and multiply where a power is raised, and the power to a power of two
is squaring again and again. -/
theorem pow_is_iterated_composition (hx : x.Definite d.value) (hp : x.Primitive) :
    (∀ n, x.pow d n = (fun acc => compose d acc x.reduced)^[n] (identity d)) ∧
    (∀ m n, x.pow d (m + n) = compose d (x.pow d m) (x.pow d n)) ∧
    (∀ m n, (x.pow d m).pow d n = x.pow d (m * n)) ∧
    ∀ n, x.pow d (2 ^ n) = squareTimes d n x.reduced := by
  have hrep : Represents d x (x.classOf d) := ⟨hx, hp, rfl⟩
  refine ⟨fun n => ?_, fun m n => ?_, fun m n => ?_, fun n => ?_⟩
  · have hiterate := (Represents.identity d).iterate_compose hrep.reduced n
    rw [one_mul] at hiterate
    exact hrep.pow_eq hiterate ((Represents.identity d).isReduced_iterate_compose hrep.reduced
      (Canonical.identity d).isReduced n)
  · have hproduct := (hrep.pow m).composite (hrep.pow n)
    rw [← pow_add] at hproduct
    exact hrep.pow_eq hproduct.reduced hproduct.isReduced_reduced
  · have hproduct := hrep.pow (m * n)
    rw [pow_mul] at hproduct
    exact (hrep.pow m).pow_eq hproduct (hrep.isReduced_pow _)
  · exact hrep.pow_eq (hrep.reduced.squareTimes n)
      (hrep.reduced.definite.squareTimes hrep.isReduced_reduced n).2

/-- Powers of a form of discriminant `-47` that is not reduced. -/
theorem pow_is_iterated_composition_47 :
    (Definite (-47) ⟨6, 11, 7⟩ ∧ Primitive ⟨6, 11, 7⟩ ∧ isReduced ⟨6, 11, 7⟩ = false) ∧
    pow discriminant47 ⟨6, 11, 7⟩ 13 = ⟨3, 1, 4⟩ ∧
    (fun acc => compose discriminant47 acc (reduced ⟨6, 11, 7⟩))^[13] (identity discriminant47) =
      ⟨3, 1, 4⟩ ∧
    squareTimes discriminant47 5 (reduced ⟨6, 11, 7⟩) = pow discriminant47 ⟨6, 11, 7⟩ 32 := by
  have hx : Definite (-47) ⟨6, 11, 7⟩ := ⟨by decide, by decide⟩
  have hp : Primitive ⟨6, 11, 7⟩ := by decide
  have hpow : pow discriminant47 ⟨6, 11, 7⟩ 13 = ⟨3, 1, 4⟩ := by decide +kernel
  obtain ⟨hplain, -, -, hsquares⟩ := pow_is_iterated_composition (d := discriminant47) hx hp
  exact ⟨⟨hx, hp, by decide⟩, hpow, hplain 13 ▸ hpow, (hsquares 5).symm⟩

end Form

end VerifiableDelay
