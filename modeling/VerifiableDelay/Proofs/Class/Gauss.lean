import VerifiableDelay.Proofs.Form.Division
import VerifiableDelay.Proofs.Class.Laws
/-!
# Gauss's composite

The composite of two forms as it stands in the books: the common factor of
the leading coefficients and the half sum is written as a combination of the
three, and the cofactors of any one such combination give the middle
coefficient. They also give a multiplier that makes the forms concordant, so
this composite is one that is written out (`gauss_eq_direct`), and of the
product class whatever the cofactors. **Composition gives a form properly
equivalent to it**, and divides by nothing that does not go in
(`composite_is_gauss`).
-/

namespace VerifiableDelay

namespace Form

/-- The common factor of the leading coefficients and the half sum of the
middle ones. -/
def sharedFactor (f g : Form) : Int := Int.gcd f.a (Int.gcd g.a ((f.b + g.b) / 2))

/-- **Gauss's composite** of two forms of the discriminant `D`, by cofactors
of the leading coefficients and the half sum in their common factor. -/
def gauss (D : Int) (f g : Form) (u v w : Int) : Form :=
  let s := sharedFactor f g
  let b := (u * f.a * g.b + v * g.a * f.b + w * ((f.b * g.b + D) / 2)) / s
  ⟨f.a * g.a / s ^ 2, b, (b ^ 2 - D) * s ^ 2 / (4 * (f.a * g.a))⟩

variable {D : Int} {d : Discriminant} {f g : Form} {u v w a₁ a₂ : Int}

theorem sharedFactor_pos (hf : f.Definite D) (g : Form) : 0 < sharedFactor f g := by
  rw [sharedFactor]
  exact_mod_cast Int.gcd_pos_of_ne_zero_left _ hf.leading_pos.ne'

theorem sharedFactor_dvd (f g : Form) :
    sharedFactor f g ∣ f.a ∧ sharedFactor f g ∣ g.a ∧ sharedFactor f g ∣ (f.b + g.b) / 2 := by
  have h : sharedFactor f g ∣ (Int.gcd g.a ((f.b + g.b) / 2) : Int) := Int.gcd_dvd_right _ _
  exact ⟨Int.gcd_dvd_left _ _, h.trans (Int.gcd_dvd_left _ _), h.trans (Int.gcd_dvd_right _ _)⟩

/-- **The cofactors make the forms concordant**: the multiplier is what they
combine half the difference and the last coefficient to. -/
theorem concordant_of_combination (hf : f.Definite D) (hg : g.Definite D)
    (huvw : u * f.a + v * g.a + w * ((f.b + g.b) / 2) = sharedFactor f g)
    (ha₁ : f.a = sharedFactor f g * a₁) (ha₂ : g.a = sharedFactor f g * a₂) :
    Concordant f g ((f.b + g.b) / 2) ((f.b - g.b) / 2) (sharedFactor f g) a₁ a₂
      ((f.b - g.b) / 2 * v - w * g.c) := by
  obtain ⟨hs, hm⟩ := exists_halves hf hg
  refine concordant_of_cofactors (u := u * f.a + v * g.a) (v := v) (l := w) (r := 1) hf hg hs hm
    ⟨-u, by ring⟩ (sharedFactor_pos hf g) ?_ (sharedFactor_dvd f g).2.2 ha₁ ha₂ (by simp)
  rw [← huvw]
  ring

/-- **Gauss's composite is one written out**, and its divisions leave
nothing. -/
theorem gauss_eq_direct (hf : f.Definite D) (hg : g.Definite D)
    (huvw : u * f.a + v * g.a + w * ((f.b + g.b) / 2) = sharedFactor f g)
    (ha₁ : f.a = sharedFactor f g * a₁) (ha₂ : g.a = sharedFactor f g * a₂) :
    gauss D f g u v w = composeDirect a₁ a₂ g.b (g.c * sharedFactor f g)
      ((f.b - g.b) / 2 * v - w * g.c) := by
  obtain ⟨hs, hm⟩ := exists_halves hf hg
  have hpos := sharedFactor_pos hf g
  have hdisc := hg.discriminant_eq
  have hconc := concordant_of_combination hf hg huvw ha₁ ha₂
  have hdirect := (hconc.definite_direct hf hg).discriminant_eq
  simp only [discriminant] at hdisc hdirect
  set k := (f.b - g.b) / 2 * v - w * g.c with hk
  have hhalf : (f.b * g.b + D) / 2 = g.b * ((f.b + g.b) / 2) - 2 * (g.a * g.c) := by
    refine Int.ediv_eq_of_eq_mul_right two_ne_zero ?_
    linear_combination -hdisc + g.b * hs
  have hmiddle : (u * f.a * g.b + v * g.a * f.b + w * ((f.b * g.b + D) / 2)) / sharedFactor f g =
      2 * (a₂ * k) + g.b := by
    refine Int.ediv_eq_of_eq_mul_right hpos.ne' ?_
    rw [hhalf]
    linear_combination g.b * huvw + v * g.a * hm + 2 * k * ha₂ - 2 * g.a * hk
  have hne : 4 * (f.a * g.a) ≠ 0 :=
    mul_ne_zero four_ne_zero (mul_ne_zero hf.leading_pos.ne' hg.leading_pos.ne')
  simp only [gauss]
  rw [hmiddle]
  simp only [composeDirect] at hdirect ⊢
  congr 1
  · refine Int.ediv_eq_of_eq_mul_right (pow_ne_zero 2 hpos.ne') ?_
    linear_combination g.a * ha₁ + sharedFactor f g * a₁ * ha₂
  · refine Int.ediv_eq_of_eq_mul_right hne ?_
    rw [ha₁, ha₂]
    linear_combination sharedFactor f g ^ 2 * hdirect

/-- **Gauss's composite is of the product class**, whatever the cofactors. -/
theorem classOf_gauss (hf : f.Definite d.value) (hg : g.Definite d.value) (hpf : f.Primitive)
    (hpg : g.Primitive) (huvw : u * f.a + v * g.a + w * ((f.b + g.b) / 2) = sharedFactor f g) :
    (gauss d.value f g u v w).Definite d.value ∧
      (gauss d.value f g u v w).classOf d = f.classOf d * g.classOf d := by
  obtain ⟨⟨a₁, ha₁⟩, ⟨a₂, ha₂⟩, -⟩ := sharedFactor_dvd f g
  have hconc := concordant_of_combination hf hg huvw ha₁ ha₂
  rw [gauss_eq_direct hf hg huvw ha₁ ha₂]
  exact ⟨hconc.definite_direct hf hg, hconc.classOf_direct hf hg hpf hpg⟩

/-- **Composition is Gauss's.** For definite forms of a discriminant, reduced
or not and whatever they have in common, division that refuses to divide by
zero and to leave a remainder gives the composite that plain division gives,
and it is a definite form of the discriminant. Of primitive forms it is
primitive and properly equivalent to Gauss's composite by any cofactors. -/
theorem composite_is_gauss (hf : f.Definite d.value) (hg : g.Definite d.value) :
    (compositeWith .plain d f g = pure (composite d f g) ∧
      compositeWith .checked d f g = some (composite d f g)) ∧
    (0 < (composite d f g).a ∧ (composite d f g).discriminant = d.value) ∧
    (f.Primitive → g.Primitive → (composite d f g).Primitive ∧
      ∀ u v w, u * f.a + v * g.a + w * ((f.b + g.b) / 2) = sharedFactor f g →
        (gauss d.value f g u v w).Equivalent (composite d f g)) := by
  have hfg := hf.composite hg
  refine ⟨⟨compositeWith_eq hf hg .plain, compositeWith_eq hf hg .checked⟩,
    ⟨hfg.leading_pos, hfg.discriminant_eq⟩, fun hpf hpg => ⟨hpf.composite hf hg hpg, ?_⟩⟩
  intro u v w huvw
  obtain ⟨hgauss, hclass⟩ := classOf_gauss hf hg hpf hpg huvw
  rw [← classOf_eq_iff hgauss hfg, hclass, classOf_composite hf hg hpf hpg]

/-- Two forms of discriminant `-47` that share a factor with their half sum
and are composed by partial remainders, to other coefficients than
Gauss's. -/
theorem composite_is_gauss_47 :
    (Definite (-47) ⟨6, 1, 2⟩ ∧ Definite (-47) ⟨6, 7, 4⟩ ∧
      sharedFactor ⟨6, 1, 2⟩ ⟨6, 7, 4⟩ = 2 ∧
      gauss (-47) ⟨6, 1, 2⟩ ⟨6, 7, 4⟩ 0 1 (-1) = ⟨9, 13, 6⟩ ∧
      composite discriminant47 ⟨6, 1, 2⟩ ⟨6, 7, 4⟩ = ⟨6, 11, 7⟩) ∧
    compositeWith .checked discriminant47 ⟨6, 1, 2⟩ ⟨6, 7, 4⟩ = some ⟨6, 11, 7⟩ ∧
    Equivalent ⟨9, 13, 6⟩ ⟨6, 11, 7⟩ := by
  have hf : Definite (-47) ⟨6, 1, 2⟩ := ⟨by decide, by decide⟩
  have hg : Definite (-47) ⟨6, 7, 4⟩ := ⟨by decide, by decide⟩
  have hgauss : gauss (-47) ⟨6, 1, 2⟩ ⟨6, 7, 4⟩ 0 1 (-1) = ⟨9, 13, 6⟩ := by decide
  have hcomposite : composite discriminant47 ⟨6, 1, 2⟩ ⟨6, 7, 4⟩ = ⟨6, 11, 7⟩ := by decide +kernel
  obtain ⟨⟨-, hchecked⟩, -, hprimitive⟩ := composite_is_gauss (d := discriminant47) hf hg
  have hequiv := (hprimitive (by decide) (by decide)).2 0 1 (-1) (by decide)
  exact ⟨⟨hf, hg, by decide, hgauss, hcomposite⟩, hcomposite ▸ hchecked,
    hgauss ▸ hcomposite ▸ hequiv⟩

end Form

end VerifiableDelay
