import VerifiableDelay.Proofs.Class.Laws
import VerifiableDelay.Proofs.Proof.Verify
/-!
# The verdict depends on classes

Forms that are properly equivalent reduce to the same, so they lead to the
same challenge, and powers of them are of the same class however they are
reduced on the way. So a verifier takes any forms of a class for each other,
and **its verdict is an equation between classes**
(`Verify.verdict_depends_on_classes`), whatever squares the discriminant has.
-/

namespace VerifiableDelay

open Form

variable {d : Discriminant} {x y z proof x' y' proof' : Form} {c e : FormClass d}
variable {iterations b : Nat}

namespace Verify

/-- A verdict is reached on what the forms reduce to. -/
theorem segment_congr (hx : Represents d x c) (hx' : Represents d x' c)
    (hproof : Represents d proof e) (hproof' : Represents d proof' e) (hy : y.Definite d.value)
    (hyy' : y.Equivalent y') (iterations : Nat) :
    segment d x y proof iterations = segment d x' y' proof' iterations := by
  have hy' := hy.of_equivalent d.value_neg hyy'
  have hred : y.reduced = y'.reduced := (reduced_eq_reduced_iff d.value_neg hy hy').2 hyy'
  rw [segment, segment, hred, Challenge.prime_congr hx.definite hx'.definite hy hy'
    (reduced_eq_of_represents hx hx') hred]
  simp only [target_congr hx hx' hproof hproof']

/-- **Under a challenge the verdict compares classes.** -/
theorem segment_eq_of_prime (hx : Represents d x c) (hproof : Represents d proof e)
    (hy : y.Definite d.value) (hprime : Challenge.prime d x y = .ok b) (iterations : Nat) :
    ∃ verdict, segment d x y proof iterations = .ok verdict ∧
      (verdict = true ↔ e ^ b * c ^ (2 ^ iterations % b) = y.classOf d) := by
  have htarget := represents_target hx hproof b iterations
  have hreduced := isReduced_target hx.definite hproof.definite b iterations
  refine ⟨target d x proof b iterations == y.reduced, ?_, ?_⟩
  · rw [segment, hprime]
    rfl
  · rw [beq_iff_eq, ← htarget.classOf_eq, ← classOf_reduced hy]
    constructor
    · intro h
      rw [h]
    · intro h
      exact eq_of_classOf_eq htarget.definite (hy.reduced d.value_neg) hreduced
        (hy.isReduced_reduced d.value_neg) h

/-- What is recovered depends on the classes too. -/
theorem recover_congr (hx : Represents d x c) (hx' : Represents d x' c)
    (hproof : Represents d proof e) (hproof' : Represents d proof' e) (b iterations : Nat) :
    recover d x proof b iterations = recover d x' proof' b iterations := by
  have htarget := target_congr hx hx' hproof hproof' b iterations
  have hy := (represents_target hx' hproof' b iterations).definite
  simp only [recover, htarget, Challenge.prime_congr hx.definite hx'.definite hy hy
    (reduced_eq_of_represents hx hx') rfl]

/-- **What is recovered is the reduced form of the class** that the proof
leads to, if the challenge is that of the two. -/
theorem recover_eq_some_iff_class (hx : Represents d x c) (hproof : Represents d proof e) :
    recover d x proof b iterations = .ok (some z) ↔
      (Canonical d z ∧ z.classOf d = e ^ b * c ^ (2 ^ iterations % b)) ∧
        Challenge.prime d x z = .ok b := by
  have htarget := represents_target hx hproof b iterations
  have hreduced := isReduced_target hx.definite hproof.definite b iterations
  rw [recover_eq_some_iff]
  refine and_congr_left fun _ => ⟨?_, fun ⟨hz, hclass⟩ => ?_⟩
  · rintro rfl
    exact ⟨⟨hreduced, htarget.definite.discriminant_eq, htarget.primitive⟩, htarget.classOf_eq⟩
  · exact eq_of_represents ⟨hz.definite, hz.primitive, hclass⟩ htarget hz.isReduced hreduced

/-- And there is an answer if there is a challenge for that form. -/
theorem exists_recover_of_class (hx : Represents d x c) (hproof : Represents d proof e)
    (h : ∀ z, Canonical d z → z.classOf d = e ^ b * c ^ (2 ^ iterations % b) →
      Challenge.prime d x z ≠ .error .noPrime) :
    ∃ found, recover d x proof b iterations = .ok found := by
  have htarget := represents_target hx hproof b iterations
  obtain ⟨p, hp⟩ := Challenge.exists_prime (h _
    ⟨isReduced_target hx.definite hproof.definite b iterations, htarget.definite.discriminant_eq,
      htarget.primitive⟩ htarget.classOf_eq)
  rw [recover]
  split
  · exact ⟨none, rfl⟩
  · simp only [hp]
    exact ⟨_, rfl⟩

/-- **The verdict depends on classes.** Primitive forms are taken for any
that they are properly equivalent to, reduced or not. Where there is a
challenge the verdict is that the class of the proof to the challenge times
that of the start to the remainder of the power of two is the class of the
end. Recovering the end gives the reduced form of that product class, under
the challenge of the two and no other. -/
theorem verdict_depends_on_classes (hx : x.Definite d.value) (hpx : x.Primitive)
    (hy : y.Definite d.value) (hproof : proof.Definite d.value) (hpproof : proof.Primitive)
    (hxx' : x.Equivalent x') (hyy' : y.Equivalent y') (hproofs : proof.Equivalent proof')
    (iterations : Nat) :
    segment d x y proof iterations = segment d x' y' proof' iterations ∧
      (Challenge.prime d x y ≠ .error .noPrime →
        ∃ b verdict, Challenge.prime d x y = .ok b ∧
          segment d x y proof iterations = .ok verdict ∧
          (verdict = true ↔
            proof.classOf d ^ b * x.classOf d ^ (2 ^ iterations % b) = y.classOf d)) ∧
      ∀ b, recover d x proof b iterations = recover d x' proof' b iterations ∧
        (∀ z, recover d x proof b iterations = .ok (some z) ↔
          (Canonical d z ∧
            z.classOf d = proof.classOf d ^ b * x.classOf d ^ (2 ^ iterations % b)) ∧
          Challenge.prime d x z = .ok b) ∧
        ((∀ z, Canonical d z →
            z.classOf d = proof.classOf d ^ b * x.classOf d ^ (2 ^ iterations % b) →
            Challenge.prime d x z ≠ .error .noPrime) →
          ∃ found, recover d x proof b iterations = .ok found) := by
  have hrx : Represents d x (x.classOf d) := ⟨hx, hpx, rfl⟩
  have hrproof : Represents d proof (proof.classOf d) := ⟨hproof, hpproof, rfl⟩
  have hrx' := hrx.of_equivalent hxx'
  have hrproof' := hrproof.of_equivalent hproofs
  refine ⟨segment_congr hrx hrx' hrproof hrproof' hy hyy' iterations, fun hsearch => ?_,
    fun b => ⟨recover_congr hrx hrx' hrproof hrproof' b iterations,
      fun z => recover_eq_some_iff_class hrx hrproof, exists_recover_of_class hrx hrproof⟩⟩
  obtain ⟨b, hb⟩ := Challenge.exists_prime hsearch
  obtain ⟨verdict, hverdict, hiff⟩ := segment_eq_of_prime hrx hrproof hy hb iterations
  exact ⟨b, verdict, hb, hverdict, hiff⟩

/-- The discriminant `-279`, a multiple of nine. -/
def discriminant279 : Discriminant :=
  { value := -279, value_neg := by decide, value_mod := by decide }

/-- Five squarings, with three forms swapped or shifted. -/
theorem verdict_depends_on_classes_279 :
    ((Definite discriminant279.value ⟨5, 1, 14⟩ ∧ Primitive ⟨5, 1, 14⟩) ∧
        Definite discriminant279.value ⟨4, 3, 18⟩ ∧
        Definite discriminant279.value ⟨2, 1, 35⟩ ∧ Primitive ⟨2, 1, 35⟩) ∧
      (Equivalent ⟨5, 1, 14⟩ ⟨14, -1, 5⟩ ∧ Equivalent ⟨4, 3, 18⟩ ⟨18, -3, 4⟩ ∧
        Equivalent ⟨2, 1, 35⟩ ⟨2, 5, 38⟩) ∧
      segment discriminant279 ⟨5, 1, 14⟩ ⟨4, 3, 18⟩ ⟨2, 1, 35⟩ 5 =
        segment discriminant279 ⟨14, -1, 5⟩ ⟨18, -3, 4⟩ ⟨2, 5, 38⟩ 5 ∧
      ∃ b verdict, Challenge.prime discriminant279 ⟨5, 1, 14⟩ ⟨4, 3, 18⟩ = .ok b ∧
        segment discriminant279 ⟨5, 1, 14⟩ ⟨4, 3, 18⟩ ⟨2, 1, 35⟩ 5 = .ok verdict ∧
        (verdict = true ↔
          classOf discriminant279 ⟨2, 1, 35⟩ ^ b * classOf discriminant279 ⟨5, 1, 14⟩ ^ (2 ^ 5 % b) =
            classOf discriminant279 ⟨4, 3, 18⟩) := by
  have hx : Definite discriminant279.value ⟨5, 1, 14⟩ := ⟨by decide, by decide⟩
  have hy : Definite discriminant279.value ⟨4, 3, 18⟩ := ⟨by decide, by decide⟩
  have hproof : Definite discriminant279.value ⟨2, 1, 35⟩ := ⟨by decide, by decide⟩
  have hxx' : Equivalent ⟨5, 1, 14⟩ ⟨14, -1, 5⟩ := equivalent_swap _
  have hyy' : Equivalent ⟨4, 3, 18⟩ ⟨18, -3, 4⟩ := equivalent_swap _
  have hproofs : Equivalent ⟨2, 1, 35⟩ ⟨2, 5, 38⟩ := equivalent_shift _ 1
  obtain ⟨hsegment, hverdict, -⟩ := verdict_depends_on_classes hx (by decide) hy hproof (by decide)
    hxx' hyy' hproofs 5
  exact ⟨⟨⟨hx, by decide⟩, hy, hproof, by decide⟩, ⟨hxx', hyy', hproofs⟩, hsegment,
    hverdict (by decide +kernel)⟩

end Verify

end VerifiableDelay
