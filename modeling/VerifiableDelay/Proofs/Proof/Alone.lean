import VerifiableDelay.Proof.Alone
import VerifiableDelay.Proof.Verify
import VerifiableDelay.Proofs.Form.Fit
import VerifiableDelay.Proofs.Proof.Power
/-!
# What the plain prover sends is accepted

The forms that the prover keeps are those that squaring leads to, on the
stride (`Kept`), so its proof is the power of the start to the quotient. The
verifier adds the power to the remainder. **Quotient and remainder together
make up the squarings** (`Verify.segment_of_represents`), and as a class has
one reduced form, and that form one encoding, the bytes are accepted
(`Alone.prove_accepted`) and do not depend on how the quotient was cut.
-/

namespace VerifiableDelay

open Form

variable {d : Discriminant} {x y proof x' proof' : Form} {c e : FormClass d}

namespace Alone

variable {stride iterations i : Nat} {kept : Array Form}

/-- **The forms kept after `i` squarings** of `x`: one for each multiple of
the stride below. -/
structure Kept (d : Discriminant) (stride : Nat) (x : Form) (i : Nat) (kept : Array Form) :
    Prop where
  lt_size_iff : ∀ k, k < kept.size ↔ stride * k < i
  get_eq : ∀ k, stride * k < i → kept[k]? = some (squareTimes d (stride * k) x)

theorem kept_empty (d : Discriminant) (stride : Nat) (x : Form) : Kept d stride x 0 #[] where
  lt_size_iff := by simp
  get_eq := by simp

/-- One more squaring keeps the form it starts from, if that is on the
stride. -/
theorem Kept.next (h : Kept d stride x i kept) (hstride : 0 < stride) :
    Kept d stride x (i + 1)
      (if i % stride = 0 then kept.push (squareTimes d i x) else kept) := by
  split
  · rename_i hmod
    obtain ⟨m, rfl⟩ := Nat.dvd_of_mod_eq_zero hmod
    have hlt : ∀ k, stride * k < stride * m + 1 ↔ k ≤ m := by
      intro k
      rw [Nat.lt_succ_iff, Nat.mul_le_mul_left_iff hstride]
    -- the multiples below are those of the numbers below
    have hsize : kept.size = m := by
      have hiff : ∀ k, k < kept.size ↔ k < m := by
        intro k
        rw [h.lt_size_iff, Nat.mul_lt_mul_left hstride]
      have := hiff m
      have := hiff kept.size
      omega
    refine ⟨fun k => ?_, fun k hk => ?_⟩
    · rw [Array.size_push, hsize, hlt]
      omega
    · rw [hlt] at hk
      rw [Array.getElem?_push, hsize]
      split
      · rename_i heq
        rw [heq]
      · exact h.get_eq k ((Nat.mul_lt_mul_left hstride).2 (by omega))
  · rename_i hmod
    have hlt : ∀ k, stride * k < i + 1 ↔ stride * k < i := by
      intro k
      have : stride * k ≠ i := by
        rintro rfl
        exact hmod (Nat.mul_mod_right _ _)
      omega
    exact ⟨fun k => (h.lt_size_iff k).trans (hlt k).symm, fun k hk => h.get_eq k ((hlt k).1 hk)⟩

/-- **Squaring** keeps the forms it should, and ends at the last. -/
theorem squareFrom_spec (count : Nat) (h : Kept d stride x i kept) (hstride : 0 < stride) :
    Kept d stride x (i + count) (squareFrom d stride count i (squareTimes d i x) kept).1 ∧
      (squareFrom d stride count i (squareTimes d i x) kept).2 = squareTimes d (i + count) x := by
  induction count generalizing i kept with
  | zero => exact ⟨h, rfl⟩
  | succ count ih =>
    rw [squareFrom, ← squareTimes_succ, show i + (count + 1) = i + 1 + count by omega]
    exact ih (h.next hstride)

/-- The forms kept are the checkpoints of the run. -/
theorem Kept.faithful (h : Kept d stride x iterations kept) (hx : Represents d x c) :
    Power.Faithful d (checkpoints kept) c stride iterations := by
  intro k hk
  refine ⟨squareTimes d (stride * k) x, ?_, hx.squareTimes _⟩
  rw [checkpoints, h.get_eq k hk]

/-- **Squaring a form keeps the checkpoints of its run**, and ends where that
leads. -/
theorem square_spec (iterations : Nat) (hx : Represents d x c) (hstride : 0 < stride) :
    Power.Faithful d (checkpoints (square d x iterations stride).1) c stride iterations ∧
      Represents d (square d x iterations stride).2 (c ^ 2 ^ iterations) := by
  obtain ⟨hkept, hend⟩ := squareFrom_spec iterations (kept_empty d stride x.reduced) hstride
  rw [Nat.zero_add] at hkept hend
  exact ⟨hkept.faithful hx.reduced, hend ▸ hx.reduced.squareTimes iterations⟩

end Alone

namespace Verify

/-- **Where a proof leads** is of the class of its power to the challenge
times the start's to the remainder. -/
theorem represents_target (hx : Represents d x c) (hproof : Represents d proof e)
    (challenge iterations : Nat) :
    Represents d (target d x proof challenge iterations)
      (e ^ challenge * c ^ (2 ^ iterations % challenge)) := by
  rw [target, powMod_eq]
  exact (hproof.pow challenge).compose (hx.pow _)

theorem isReduced_target (hx : x.Definite d.value) (hproof : proof.Definite d.value)
    (challenge iterations : Nat) : (target d x proof challenge iterations).isReduced = true :=
  ((hproof.pow challenge).composite (hx.pow _)).isReduced_reduced d.value_neg

/-- It depends on the classes alone. -/
theorem target_congr (hx : Represents d x c) (hx' : Represents d x' c)
    (hproof : Represents d proof e) (hproof' : Represents d proof' e)
    (challenge iterations : Nat) :
    target d x proof challenge iterations = target d x' proof' challenge iterations :=
  eq_of_represents (represents_target hx hproof challenge iterations)
    (represents_target hx' hproof' challenge iterations)
    (isReduced_target hx.definite hproof.definite _ _)
    (isReduced_target hx'.definite hproof'.definite _ _)

/-- **A power to the quotient is accepted**: with the power to the remainder
it is the form that the squarings lead to. -/
theorem segment_of_represents {modulus iterations : Nat} (hx : Represents d x c)
    (hy : Represents d y (c ^ 2 ^ iterations))
    (hproof : Represents d proof (c ^ (2 ^ iterations / modulus)))
    (hchallenge : Challenge.prime d x y = .ok modulus) :
    segment d x y proof iterations = .ok true := by
  have htarget := represents_target hx hproof modulus iterations
  rw [← pow_mul, ← pow_add, Nat.div_add_mod'] at htarget
  have heq : target d x proof modulus iterations = y.reduced :=
    eq_of_represents htarget hy.reduced (isReduced_target hx.definite hproof.definite _ _)
      hy.isReduced_reduced
  rw [segment, hchallenge]
  simp [bind, Except.bind, pure, Except.pure, heq]

/-- A proof without links is checked as one segment. -/
theorem chain_zero {start output body : List UInt8} (iterations : Nat)
    (hx : decode d start = .ok x) (hy : decode d output = .ok y) (hproof : decode d body = .ok proof) :
    chain d start (output ++ body) iterations 0 = segment d x y proof iterations := by
  have hlen := length_of_decode hy
  have hlen' := length_of_decode hproof
  have hchain : Chain.decode d (output ++ body) 0 = .ok { y, proof, links := [] } := by
    have htake : (output ++ body).take Codec.formSize = output := by rw [← hlen, List.take_left]
    have hdrop : (output ++ body).drop Codec.formSize = body := by rw [← hlen, List.drop_left]
    have htake' : body.take Codec.formSize = body := by rw [← hlen', List.take_length]
    rw [Chain.decode, if_neg (by decide), if_neg (by rw [List.length_append]; omega), htake, hdrop]
    simp only [htake', hy, hproof, bind, Except.bind, Chain.readLinks]
    rfl
  rw [chain, hx]
  simp only [bind, Except.bind, hchain, links]

end Verify

namespace Alone

variable {iterations modulus : Nat} {parameters : Parameters} {output body : List UInt8}

/-- **What the prover sends does not depend on how the quotient is cut**: it
is the last form and the reduced power to the quotient, encoded. -/
theorem proveWith_eq (hx : Represents d x c) (hwidth : parameters.width ≤ 63)
    (hchallenge : Challenge.prime d x (squareTimes d iterations x) = .ok modulus)
    (hproof : Represents d proof (c ^ (2 ^ iterations / modulus)))
    (hreduced : proof.isReduced = true)
    (houtput : (squareTimes d iterations x).encode d = .ok output)
    (hbody : proof.encode d = .ok body) :
    proveWith d x iterations parameters = .ok (output ++ body) := by
  have hy := hx.squareTimes iterations
  have hstart := hx.reduced.definite.squareTimes hx.isReduced_reduced iterations
  have hlast : squareTimes d iterations x.reduced = (squareTimes d iterations x).reduced :=
    eq_of_represents (hx.reduced.squareTimes iterations) hy.reduced hstart.2 hy.isReduced_reduced
  obtain ⟨hkept, hend⟩ := squareFrom_spec iterations
    (kept_empty d parameters.stride x.reduced) parameters.stride_pos
  rw [Nat.zero_add] at hkept hend
  have hsquare : square d x iterations parameters.stride =
      ((square d x iterations parameters.stride).1, (squareTimes d iterations x).reduced) := by
    rw [← hlast, ← hend]
    rfl
  obtain ⟨found, hfound, hrep, hred⟩ := Power.prove_eq hwidth (hkept.faithful hx.reduced)
    ((Challenge.prime_reduced_right x hy.definite).trans hchallenge)
  have heq : found = proof := eq_of_represents hrep hproof hred hreduced
  subst heq
  rw [proveWith, hsquare]
  have houtput' := (encode_reduced hy.definite).trans houtput
  have hprove : Power.prove d x (squareTimes d iterations x).reduced
      (checkpoints (square d x iterations parameters.stride).1) iterations parameters false =
        .ok found := hfound
  simp only [hprove, houtput', hbody, ofFormResult, bind, Except.bind]
  rfl

/-- **What the plain prover sends is accepted.** For a squarefree
discriminant that forms are encoded for and any definite form, whatever the
digits the quotient is cut into: the prover answers, unless there is no
challenge, with the encoding of the form squared that many times and one of
a proof, and the two verify. -/
theorem prove_accepted (hbits : d.bits ≤ Discriminant.maxBits)
    (hsquarefree : Squarefree d.value.natAbs) (hx : x.Definite d.value) (iterations : Nat)
    (hchallenge : Challenge.prime d x (squareTimes d iterations x) ≠ .error .noPrime) :
    ∃ start output body, x.encode d = .ok start ∧
      (squareTimes d iterations x).encode d = .ok output ∧
      (∀ parameters : Parameters, parameters.width ≤ 63 →
        proveWith d x iterations parameters = .ok (output ++ body)) ∧
      prove d x iterations = .ok (output ++ body) ∧
      Verify.chain d start (output ++ body) iterations 0 = .ok true := by
  have hd : Squarefree d.value := Int.squarefree_natAbs.1 hsquarefree
  have hrep : Represents d x (x.classOf d) :=
    ⟨hx, .of_squarefree (hx.discriminant_eq.symm ▸ hd), rfl⟩
  have hy := hrep.squareTimes iterations
  obtain ⟨modulus, hmodulus⟩ := Challenge.exists_prime hchallenge
  obtain ⟨proof, hproof, hreduced⟩ : ∃ proof,
      Represents d proof (x.classOf d ^ (2 ^ iterations / modulus)) ∧ proof.isReduced = true :=
    ⟨_, (hrep.pow _).reduced, (hrep.pow _).isReduced_reduced⟩
  obtain ⟨start, hstart⟩ := exists_encode hx hbits
  obtain ⟨output, houtput⟩ := exists_encode hy.definite hbits
  obtain ⟨body, hbody⟩ := exists_encode hproof.definite hbits
  have hwith : ∀ parameters : Parameters, parameters.width ≤ 63 →
      proveWith d x iterations parameters = .ok (output ++ body) :=
    fun _ hwidth => proveWith_eq hrep hwidth hmodulus hproof hreduced houtput hbody
  refine ⟨start, output, body, hstart, houtput, hwith,
    hwith _ (Parameters.approximate_width_le iterations), ?_⟩
  have hdecode := decode_of_encode_definite hd hproof.definite hbody
  rw [reduced_of_isReduced hproof.definite.leading_pos hreduced] at hdecode
  rw [Verify.chain_zero iterations (decode_of_encode_definite hd hx hstart)
    (decode_of_encode_definite hd hy.definite houtput) hdecode]
  refine Verify.segment_of_represents hrep.reduced hy.reduced hproof ?_
  rw [Challenge.prime_reduced_left hx, Challenge.prime_reduced_right x hy.definite, hmodulus]

/-- The discriminant `-1487`, a prime's negative. -/
def discriminant1487 : Discriminant :=
  { value := -1487, value_neg := by decide, value_mod := by decide }

/-- Thirty-one squarings of a form that is not reduced. -/
theorem prove_accepted_1487 :
    isReduced ⟨2, 5, 189⟩ = false ∧
      ∃ start output body, encode discriminant1487 ⟨2, 5, 189⟩ = .ok start ∧
        (squareTimes discriminant1487 31 ⟨2, 5, 189⟩).encode discriminant1487 = .ok output ∧
        (∀ parameters : Parameters, parameters.width ≤ 63 →
          proveWith discriminant1487 ⟨2, 5, 189⟩ 31 parameters = .ok (output ++ body)) ∧
        prove discriminant1487 ⟨2, 5, 189⟩ 31 = .ok (output ++ body) ∧
        Verify.chain discriminant1487 start (output ++ body) 31 0 = .ok true := by
  have hprime : Nat.Prime discriminant1487.value.natAbs := by norm_num [discriminant1487]
  have hchallenge : Challenge.prime discriminant1487 ⟨2, 5, 189⟩
      (squareTimes discriminant1487 31 ⟨2, 5, 189⟩) ≠ .error .noPrime := by decide +kernel
  exact ⟨by decide, prove_accepted (by decide) hprime.prime.squarefree ⟨by decide, by decide⟩ 31
    hchallenge⟩

end Alone

end VerifiableDelay
