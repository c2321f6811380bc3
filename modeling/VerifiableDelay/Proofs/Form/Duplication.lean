import VerifiableDelay.Proofs.Form.Division
/-!
# Duplication

The formula for squares is written apart from the one for composites: it
takes its cofactor of a magnitude and puts the sign back, and leaves out what
two equal forms leave nothing of. With its divisions left open, as those of
composition are, it comes to what it comes to by plain division
(`duplicateWith_eq`). **It is composition of the form with itself**
(`duplication_is_composition`): not only is the class the same, all three
coefficients are, whatever the first two have in common.
-/

namespace VerifiableDelay

namespace Form

variable {M : Type → Type} [Monad M]

/-- The method for squares by partial remainders, by a given division. -/
def duplicatePartialWith (q : Division M) (d : Discriminant) (a₁ b c k : Int) : M Form := do
  let x ← partialGcdWith q a₁ k d.bound
  let m ← q.exact (b * x.lower - c * x.coLower) a₁
  let difference := x.lower * x.lower - x.coLower * m
  let a := if x.coLower < 0 then difference else -difference
  let middle ← q.exact (2 * (a₁ * x.lower - a * x.coUpper)) x.coLower
  let b' ← q.floorMod (middle - b) (2 * a)
  return withPositiveLeading ⟨a, b', ← q.exact (b' * b' - d.value) (4 * a)⟩

/-- Whichever method the leading coefficient asks for. -/
def duplicateFromWith (q : Division M) (d : Discriminant) (a₁ b c k : Int) : M Form :=
  if a₁ < d.bound then do
    let t := a₁ * k
    return ⟨a₁ * a₁, 2 * t + b, ← q.exact ((b + t) * k + c) a₁⟩
  else duplicatePartialWith q d a₁ b c k

/-- A number freed of a factor of it, by a given division. -/
def freedWith (q : Division M) (a e : Int) : M Int := if e = 1 then return a else q.exact a e

/-- **The composite** of a form with itself, by a given division. -/
def duplicateWith (q : Division M) (d : Discriminant) (f : Form) : M Form := do
  let e ← Bezout.ofWith q f.b.natAbs f.a
  let v := if f.b < 0 then -e.left else e.left
  let a₁ ← freedWith q f.a e.gcd
  let c := if e.gcd = 1 then f.c else f.c * e.gcd
  let k ← q.floorMod (-(v * f.c)) a₁
  duplicateFromWith q d a₁ f.b c k

variable [LawfulMonad M] {d : Discriminant} {f : Form} {e a₁ k : Int}

namespace Concordant

/-- **The method for squares divides exactly** too: by the leading coefficient,
by a cofactor that is not zero, and by four times the new leading
coefficient. -/
theorem duplicatePartialWith_eq (h : Concordant f f f.b 0 e a₁ a₁ k) (hf : f.Definite d.value)
    (hk : 0 ≤ k) (hka : k < a₁) (hbound : (d.bound : Int) ≤ a₁) (q : Division M) :
    duplicatePartialWith q d a₁ f.b (f.c * e) k =
      pure (duplicatePartial d a₁ f.b (f.c * e) k) := by
  have ha₁ := (h.left_pos hf).ne'
  obtain ⟨n, hx, -, -⟩ := partialGcd_spec hk hka (Int.natCast_nonneg d.bound) hbound
  obtain ⟨-, hm⟩ := h.dvd_partial hx
  obtain ⟨h', ε, r, -, hdef, hε, ha, hb, hco, hmiddle⟩ := h.exists_partial hf hf hk hka hbound
  have hne := hdef.sign_mul_a_ne_zero hε
  have hlast : 4 * (ε * h'.a) ∣ _ * _ - d.value :=
    ⟨_, (hdef.sub_discriminant_eq hε hb).trans (by ring : _ = 4 * (ε * h'.a) * (ε * (h'.shift r).c))⟩
  rw [zero_mul, zero_add, Int.mul_tdiv_cancel_left _ ha₁] at ha
  rw [duplicatePartialWith, partialGcdWith_eq, pure_bind, duplicatePartial]
  generalize partialGcd a₁ k d.bound = x at *
  simp only [neg_sub]
  rw [q.exact_eq ha₁ hm, pure_bind, ha, q.exact_eq hco hmiddle, pure_bind,
    q.floorMod_eq (mul_ne_zero two_ne_zero hne), pure_bind,
    q.exact_eq (mul_ne_zero four_ne_zero hne) hlast, pure_bind]

/-- So do both methods, whichever is taken. -/
theorem duplicateFromWith_eq (h : Concordant f f f.b 0 e a₁ a₁ k) (hf : f.Definite d.value)
    (hk : 0 ≤ k) (hka : k < a₁) (q : Division M) :
    duplicateFromWith q d a₁ f.b (f.c * e) k =
      pure (if a₁ < d.bound then
          ⟨a₁ * a₁, 2 * (a₁ * k) + f.b, ((f.b + a₁ * k) * k + f.c * e).fdiv a₁⟩
        else duplicatePartial d a₁ f.b (f.c * e) k) := by
  have ha₁ := (h.left_pos hf).ne'
  rw [duplicateFromWith]
  split
  · obtain ⟨z, hz⟩ := h.dvd_direct
    simp only
    rw [q.exact_eq ha₁ h.dvd_direct, pure_bind, hz, Int.mul_tdiv_cancel_left _ ha₁,
      Int.mul_fdiv_cancel_left _ ha₁]
  · exact h.duplicatePartialWith_eq hf hk hka (by omega) q

end Concordant

omit [LawfulMonad M] in
theorem freedWith_eq {a : Int} (he : e ≠ 0) (ha : a = e * a₁) (q : Division M) :
    freedWith q a e = pure a₁ := by
  rw [freedWith, ha]
  split
  · rename_i h
    rw [h, one_mul]
  · rw [q.exact_eq he (Dvd.intro _ rfl), Int.mul_tdiv_cancel_left _ he]

/-- **Squaring never asks for what is not defined**: by any division it is
the square. -/
theorem duplicateWith_eq (hf : f.Definite d.value) (q : Division M) :
    duplicateWith q d f = pure (duplicate d f) := by
  obtain ⟨he, heb, hea, -⟩ := gcd_half_sum_spec (s := f.b) (dvd_refl f.a) (dvd_refl f.a)
    hf.leading_pos
  have hsigned := signed_cofactor f
  rw [duplicateWith, Bezout.ofWith_eq, pure_bind, duplicate]
  simp only [Bezout.gcd_of_natAbs] at hsigned ⊢
  generalize (if f.b < 0 then -(Bezout.of f.b.natAbs f.a).left
    else (Bezout.of f.b.natAbs f.a).left) = v at hsigned ⊢
  generalize (Bezout.of f.b f.a).gcd = e at *
  obtain ⟨a₁, ha₁⟩ := hea
  have hconc := concordant_self hf he heb ha₁ hsigned
  have hpos := hconc.left_pos hf
  rw [freedWith_eq he.ne' ha₁, pure_bind, ite_fdiv_eq he.ne' ha₁, ite_mul_eq,
    q.floorMod_eq hpos.ne', pure_bind]
  exact hconc.duplicateFromWith_eq hf (Int.fmod_nonneg_of_pos _ hpos)
    (Int.fmod_lt_of_pos _ hpos) q

/-- **Duplication is composition.** For any definite form of a discriminant,
reduced or not and primitive or not, division that refuses to divide by zero
and to leave a remainder gives the square that plain division gives, and it is
a definite form of the discriminant. It is the composite of the form with
itself in every coefficient, so the reduced square is the reduced composite. -/
theorem duplication_is_composition (hf : f.Definite d.value) :
    (duplicateWith .plain d f = pure (duplicate d f) ∧
      duplicateWith .checked d f = some (duplicate d f)) ∧
    (0 < (duplicate d f).a ∧ (duplicate d f).discriminant = d.value) ∧
    duplicate d f = composite d f f ∧ square d f = compose d f f := by
  have hself := duplicate_eq_composite hf
  exact ⟨⟨duplicateWith_eq hf .plain, duplicateWith_eq hf .checked⟩,
    ⟨hf.duplicate.leading_pos, hf.duplicate.discriminant_eq⟩, hself, congrArg reduced hself⟩

/-- The discriminant `-95`, minus five times nineteen. -/
def discriminant95 : Discriminant := { value := -95, value_neg := by decide, value_mod := by decide }

/-- A form whose first two coefficients share a factor, the second of them
negative; freed of it the first is still beyond the bound, and the square is
not reduced. -/
theorem duplication_is_composition_95 :
    (Definite (-95) ⟨20, -25, 9⟩ ∧ isReduced ⟨6, 5, 5⟩ = false ∧
      duplicate discriminant95 ⟨20, -25, 9⟩ = ⟨6, 5, 5⟩) ∧
    duplicateWith .checked discriminant95 ⟨20, -25, 9⟩ = some ⟨6, 5, 5⟩ ∧
    composite discriminant95 ⟨20, -25, 9⟩ ⟨20, -25, 9⟩ = ⟨6, 5, 5⟩ := by
  have hf : Definite (-95) ⟨20, -25, 9⟩ := ⟨by decide, by decide⟩
  have hsquare : duplicate discriminant95 ⟨20, -25, 9⟩ = ⟨6, 5, 5⟩ := by decide +kernel
  obtain ⟨⟨-, hchecked⟩, -, hself, -⟩ := duplication_is_composition (d := discriminant95) hf
  exact ⟨⟨hf, by decide, hsquare⟩, hsquare ▸ hchecked, hsquare ▸ hself.symm⟩

end Form

end VerifiableDelay
