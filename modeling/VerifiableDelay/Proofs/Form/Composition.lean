import VerifiableDelay.Proofs.Form.Concordant
/-!
# Composition

Both cofactors that composition takes from Euclid's algorithm serve one
purpose: the multiplier they make is the one that `Concordant` asks for. So
whichever branch is taken, and in whichever order the two forms come,
**the composite is of the class of the one written out**
(`exists_concordant_composeOrdered`), and composites and squares of definite
forms are definite forms of the same discriminant.
-/

namespace VerifiableDelay

namespace Form

variable {D : Int} {d : Discriminant} {f g : Form}

/-- The half sum and the half difference of the middle coefficients, which
have the same parity. -/
theorem exists_halves (hf : f.Definite D) (hg : g.Definite D) :
    f.b + g.b = 2 * ((f.b + g.b) / 2) ∧ f.b - g.b = 2 * ((f.b - g.b) / 2) := by
  have h1 := emod_two_b f
  have h2 := emod_two_b g
  rw [hf.discriminant_eq] at h1
  rw [hg.discriminant_eq] at h2
  omega

/-- **A multiplier from cofactors**: `v` of the second leading coefficient
in the common factor of both, and `l` and `r` of the half sum and that factor
in the one freed of. -/
theorem concordant_of_cofactors (hf : f.Definite D) (hg : g.Definite D)
    {s m u v e l r a₁ a₂ k : Int} (hs : f.b + g.b = 2 * s) (hm : f.b - g.b = 2 * m)
    (hv : f.a ∣ g.a * v - u) (he : 0 < e) (hlr : s * l + u * r = e)
    (hes : e ∣ s) (ha₁ : f.a = e * a₁) (ha₂ : g.a = e * a₂)
    (hk : a₁ ∣ k - (m * v * r - l * g.c)) : Concordant f g s m e a₁ a₂ k := by
  have hcross : f.a * f.c - g.a * g.c = m * s := by
    have h1 := hf.discriminant_eq
    have h2 := hg.discriminant_eq
    simp only [discriminant] at h1 h2
    have hfb : f.b = s + m := by omega
    have hgb : g.b = s - m := by omega
    rw [hfb] at h1
    rw [hgb] at h2
    linarith
  obtain ⟨w, hw⟩ := hv
  obtain ⟨z, hz⟩ := hk
  obtain ⟨t, rfl⟩ := hes
  refine ⟨hs, hm, he, ha₁, ha₂, Dvd.intro _ rfl, ?_, ?_⟩
  · refine ⟨m * r * w - l * f.c + a₂ * z, mul_left_cancel₀ he.ne' ?_⟩
    rw [ha₁] at hw hcross
    rw [ha₂] at hw hcross
    linear_combination (e * a₂) * hz + (m * r) * hw + l * hcross + m * hlr
  · refine ⟨r * (f.c * v - g.c * w) + t * z, ?_⟩
    rw [ha₁] at hw hcross
    rw [ha₂] at hw hcross
    linear_combination (e * t) * hz - g.c * hlr - (r * g.c) * hw - (r * v) * hcross

/-- A floor remainder is congruent to what it is the remainder of. -/
theorem dvd_fmod_sub (x y : Int) : y ∣ x.fmod y - x :=
  ⟨-x.fdiv y, by rw [Int.fmod_def]; ring⟩

/-- The common factor of the leading coefficients, with the cofactor of the
second: no division is made where the first divides it. -/
theorem exists_common (hf : 0 < f.a) :
    ∃ common v, (if g.a.fmod f.a = 0 then (f.a, 0)
      else ((Bezout.of (g.a.fmod f.a) f.a).gcd, (Bezout.of (g.a.fmod f.a) f.a).left)) = (common, v) ∧
      common ∣ f.a ∧ common ∣ g.a ∧ f.a ∣ g.a * v - common := by
  have hmod : g.a.fmod f.a = g.a % f.a := Int.fmod_eq_emod_of_nonneg _ hf.le
  rw [hmod]
  have hsplit := Int.emod_add_mul_ediv g.a f.a
  split
  · rename_i h
    exact ⟨_, _, rfl, dvd_rfl, Int.dvd_of_emod_eq_zero h, by simp⟩
  · have hdvd := (Bezout.gcd_of (g.a % f.a) f.a).symm ▸ Int.gcd_dvd_left (g.a % f.a) f.a
    have hdvd' := (Bezout.gcd_of (g.a % f.a) f.a).symm ▸ Int.gcd_dvd_right (g.a % f.a) f.a
    refine ⟨_, _, rfl, hdvd', ?_, ?_⟩
    · have h := dvd_add hdvd (hdvd'.mul_right (g.a / f.a))
      rwa [hsplit] at h
    · have h := Bezout.left_add_right (g.a % f.a) f.a
      rw [← h]
      exact ⟨g.a / f.a * (Bezout.of (g.a % f.a) f.a).left - (Bezout.of (g.a % f.a) f.a).right, by
        linear_combination -(Bezout.of (g.a % f.a) f.a).left * hsplit⟩

/-- **Where the leading coefficients have no common factor** the half sum is
not asked. -/
theorem concordant_of_coprime (hf : f.Definite D) (hg : g.Definite D) {v : Int}
    (hv : f.a ∣ g.a * v - 1) :
    Concordant f g ((f.b + g.b) / 2) ((f.b - g.b) / 2) 1 f.a g.a
      (((f.b - g.b) / 2 * v).fmod f.a) := by
  obtain ⟨hs, hm⟩ := exists_halves hf hg
  refine concordant_of_cofactors (l := 0) (r := 1) hf hg hs hm hv one_pos (by ring)
    (one_dvd _) (by ring) (by ring) ?_
  simpa using dvd_fmod_sub ((f.b - g.b) / 2 * v) f.a

/-- The factor that the half sum shares with the leading coefficients. -/
theorem gcd_half_sum_spec {s common : Int} (hcf : common ∣ f.a) (hcg : common ∣ g.a)
    (hf : 0 < f.a) :
    0 < (Bezout.of s common).gcd ∧ (Bezout.of s common).gcd ∣ s ∧
      (Bezout.of s common).gcd ∣ f.a ∧ (Bezout.of s common).gcd ∣ g.a := by
  have hcommon0 : common ≠ 0 := by
    rintro rfl
    exact hf.ne' (zero_dvd_iff.1 hcf)
  have hec : ((Int.gcd s common : Nat) : Int) ∣ common := Int.gcd_dvd_right _ _
  rw [Bezout.gcd_of]
  refine ⟨?_, Int.gcd_dvd_left _ _, hec.trans hcf, hec.trans hcg⟩
  exact_mod_cast Int.gcd_pos_of_ne_zero_right _ hcommon0

/-- **Where they have one** it is freed of what it shares with the half
sum. -/
theorem concordant_of_common (hf : f.Definite D) (hg : g.Definite D) {common v : Int}
    (hcf : common ∣ f.a) (hcg : common ∣ g.a) (hv : f.a ∣ g.a * v - common) :
    let x := Bezout.of ((f.b + g.b) / 2) common
    Concordant f g ((f.b + g.b) / 2) ((f.b - g.b) / 2) x.gcd (f.a.tdiv x.gcd) (g.a.tdiv x.gcd)
      ((((f.b - g.b) / 2 * v).fmod f.a * x.right - x.left * g.c).fmod (f.a.tdiv x.gcd)) := by
  intro x
  obtain ⟨hs, hm⟩ := exists_halves hf hg
  obtain ⟨he, hes, hef, heg⟩ : 0 < x.gcd ∧ x.gcd ∣ (f.b + g.b) / 2 ∧ x.gcd ∣ f.a ∧ x.gcd ∣ g.a :=
    gcd_half_sum_spec hcf hcg hf.leading_pos
  have hbez : (f.b + g.b) / 2 * x.left + common * x.right = x.gcd := Bezout.left_add_right _ _
  have ha₁ : x.gcd * f.a.tdiv x.gcd = f.a := Int.mul_tdiv_cancel' hef
  have ha₂ : x.gcd * g.a.tdiv x.gcd = g.a := Int.mul_tdiv_cancel' heg
  refine concordant_of_cofactors hf hg hs hm hv he hbez hes ha₁.symm ha₂.symm ?_
  obtain ⟨y, hy⟩ := dvd_fmod_sub
    (((f.b - g.b) / 2 * v).fmod f.a * x.right - x.left * g.c) (f.a.tdiv x.gcd)
  obtain ⟨z, hz⟩ := (Dvd.intro_left _ ha₁).trans
    ((dvd_fmod_sub ((f.b - g.b) / 2 * v) f.a).mul_right x.right)
  exact ⟨y + z, by linear_combination hy + hz⟩

/-- **Both branches choose their numbers as cofactors and remainders
prescribe**, with a multiplier that makes the forms concordant. -/
theorem composeOrdered_eq (hf : f.Definite d.value) (hg : g.Definite d.value) :
    ∃ e a₁ a₂ k,
      Concordant f g ((f.b + g.b) / 2) ((f.b - g.b) / 2) e a₁ a₂ k ∧ 0 ≤ k ∧ k < a₁ ∧
      composeOrdered d f g = if a₁ < d.bound then composeDirect a₁ a₂ g.b (g.c * e) k
        else composePartial d a₁ a₂ g.b (g.c * e) k ((f.b + g.b) / 2) ((f.b - g.b) / 2) := by
  obtain ⟨common, v, hcommon, hcf, hcg, hv⟩ := exists_common (g := g) hf.leading_pos
  rw [composeOrdered]
  simp only
  rw [hcommon]
  simp only
  by_cases h1 : common = 1
  · subst h1
    refine ⟨1, f.a, g.a, _, concordant_of_coprime hf hg hv, Int.fmod_nonneg_of_pos _ hf.leading_pos,
      Int.fmod_lt_of_pos _ hf.leading_pos, ?_⟩
    rw [if_pos rfl, mul_one]
  · have hconc := concordant_of_common hf hg hcf hcg hv
    have hpos := hconc.left_pos hf
    rw [if_neg h1]
    exact ⟨_, _, _, _, hconc, Int.fmod_nonneg_of_pos _ hpos, Int.fmod_lt_of_pos _ hpos, rfl⟩

/-- **Whichever branch is taken the composite is of the class of the one
written out**, for a multiplier that makes the forms concordant. -/
theorem exists_concordant_composeOrdered (hf : f.Definite d.value) (hg : g.Definite d.value) :
    ∃ s m e a₁ a₂ k, Concordant f g s m e a₁ a₂ k ∧
      (composeDirect a₁ a₂ g.b (g.c * e) k).Equivalent (composeOrdered d f g) := by
  obtain ⟨e, a₁, a₂, k, hconc, hk, hka, heq⟩ := composeOrdered_eq hf hg
  refine ⟨_, _, e, a₁, a₂, k, hconc, ?_⟩
  rw [heq]
  split
  · exact .refl _
  · exact hconc.equivalent_composePartial hf hg hk hka (by omega)

/-- The composite of two forms is made of them in one of the two orders. -/
theorem composite_eq (d : Discriminant) (f g : Form) :
    composite d f g = composeOrdered d f g ∨ composite d f g = composeOrdered d g f := by
  unfold composite
  split
  · exact .inr rfl
  · exact .inl rfl

/-- **Composites are definite forms** of the same discriminant. -/
theorem Definite.composite (hf : f.Definite d.value) (hg : g.Definite d.value) :
    (composite d f g).Definite d.value := by
  have hordered : ∀ {f g : Form}, f.Definite d.value → g.Definite d.value →
      (composeOrdered d f g).Definite d.value := by
    intro f g hf hg
    obtain ⟨s, m, e, a₁, a₂, k, hconc, hequiv⟩ := exists_concordant_composeOrdered hf hg
    exact (hconc.definite_direct hf hg).of_equivalent d.value_neg hequiv
  rcases composite_eq d f g with h | h <;> rw [h]
  · exact hordered hf hg
  · exact hordered hg hf

/-- **A form with itself** is composed by the factor that its first two
coefficients share, and the cofactor of the second. -/
theorem composite_self_eq (d : Discriminant) (f : Form) :
    composite d f f =
      let x := Bezout.of f.b f.a
      let a₁ := f.a.tdiv x.gcd
      let k := (-(x.left * f.c)).fmod a₁
      if a₁ < d.bound then composeDirect a₁ a₁ f.b (f.c * x.gcd) k
      else composePartial d a₁ a₁ f.b (f.c * x.gcd) k f.b 0 := by
  have hs : (f.b + f.b) / 2 = f.b := by omega
  have hm : (f.b - f.b) / 2 = 0 := by simp
  rw [composite, if_neg (lt_irrefl _), composeOrdered]
  simp only [hs, hm, Int.fmod_self, if_true, zero_mul, Int.zero_fmod, zero_sub]
  by_cases h1 : f.a = 1
  · have hgcd : (Bezout.of f.b f.a).gcd = 1 := by
      rw [Bezout.gcd_of, h1, Int.gcd_one_right]
      rfl
    have hk : (-((Bezout.of f.b f.a).left * f.c)).fmod f.a = 0 := by rw [h1, Int.fmod_one]
    rw [if_pos h1]
    simp only [hgcd, Int.tdiv_one, mul_one, hk]
  · rw [if_neg h1]

/-- Any such cofactor makes the form concordant to itself. -/
theorem concordant_self (hf : f.Definite D) {e a₁ v r : Int} (he : 0 < e) (heb : e ∣ f.b)
    (ha₁ : f.a = e * a₁) (hvr : f.b * v + f.a * r = e) :
    Concordant f f f.b 0 e a₁ a₁ ((-(v * f.c)).fmod a₁) := by
  refine concordant_of_cofactors (l := v) (r := r) (u := f.a) (v := 1) hf hf (by ring) (by ring)
    (by simp) he hvr heb ha₁ ha₁ ?_
  simpa using dvd_fmod_sub (-(v * f.c)) a₁

/-- The cofactor of the magnitude of the middle coefficient, with its sign,
is one of the coefficient. -/
theorem signed_cofactor (f : Form) :
    let x := Bezout.of f.b.natAbs f.a
    f.b * (if f.b < 0 then -x.left else x.left) + f.a * x.right = (Bezout.of f.b f.a).gcd := by
  intro x
  have hbez : f.b.natAbs * x.left + f.a * x.right = x.gcd := Bezout.left_add_right _ _
  rw [Bezout.gcd_of_natAbs] at hbez
  rw [← hbez]
  split
  · rw [Int.ofNat_natAbs_of_nonpos (by omega)]
    ring
  · rw [Int.natAbs_of_nonneg (by omega)]

/-- Where a factor is one it need not be multiplied in. -/
theorem ite_mul_eq (c e : Int) : (if e = 1 then c else c * e) = c * e := by
  split
  · rename_i h
    rw [h, mul_one]
  · rfl

/-- Nor need it be divided out. -/
theorem ite_fdiv_eq {a a₁ e : Int} (he : e ≠ 0) (ha : a = e * a₁) :
    (if e = 1 then a else a.fdiv e) = a₁ := by
  split
  · rename_i h
    rw [ha, h, one_mul]
  · rw [ha, Int.mul_fdiv_cancel_left _ he]

/-- **A square is the composite of the form with itself**, in every
coefficient: the cofactors taken by the two may differ, but the multipliers
they make are remainders modulo what they are known by. -/
theorem duplicate_eq_composite (hf : f.Definite d.value) : duplicate d f = composite d f f := by
  obtain ⟨he, heb, hea, -⟩ := gcd_half_sum_spec (s := f.b) (dvd_refl f.a) (dvd_refl f.a)
    hf.leading_pos
  have hbez := Bezout.left_add_right f.b f.a
  have hsigned := signed_cofactor f
  rw [composite_self_eq, duplicate]
  simp only [Bezout.gcd_of_natAbs] at hsigned ⊢
  generalize (if f.b < 0 then -(Bezout.of f.b.natAbs f.a).left
    else (Bezout.of f.b.natAbs f.a).left) = v at hsigned ⊢
  generalize Bezout.of f.b f.a = x at *
  obtain ⟨a₁, ha₁⟩ := hea
  have hconc := concordant_self hf he heb ha₁ hbez
  have hpos := hconc.left_pos hf
  have hdiv : f.a.tdiv x.gcd = a₁ := by rw [ha₁, Int.mul_tdiv_cancel_left _ he.ne']
  have hk : (-(v * f.c)).fmod a₁ = (-(x.left * f.c)).fmod a₁ := by
    obtain ⟨t, ht⟩ := Bezout.dvd_sub_of_combination he.ne' heb ha₁ hbez hsigned
    rw [show -(v * f.c) = -(x.left * f.c) + a₁ * (t * f.c) by linear_combination f.c * ht,
      Int.add_mul_fmod_self_left]
  rw [hdiv, ite_fdiv_eq he.ne' ha₁, ite_mul_eq, hk]
  split
  · obtain ⟨z, hz⟩ := hconc.dvd_direct
    rw [composeDirect, hz, Int.mul_fdiv_cancel_left _ hpos.ne', Int.mul_tdiv_cancel_left _ hpos.ne']
  · exact hconc.duplicatePartial_eq hf (Int.fmod_nonneg_of_pos _ hpos) (Int.fmod_lt_of_pos _ hpos)
      (by omega)

/-- **Squares are definite forms** of the same discriminant. -/
theorem Definite.duplicate (hf : f.Definite d.value) : (duplicate d f).Definite d.value :=
  duplicate_eq_composite hf ▸ hf.composite hf

/-- The reduced square is a definite form too. -/
theorem Definite.square (hf : f.Definite d.value) : (square d f).Definite d.value :=
  hf.duplicate.reduced d.value_neg

/-- **Squaring a reduced form again and again** gives reduced definite
forms. -/
theorem Definite.squareTimes (hf : f.Definite d.value) (hr : f.isReduced = true) (n : Nat) :
    (squareTimes d n f).Definite d.value ∧ (squareTimes d n f).isReduced = true := by
  induction n generalizing f with
  | zero => exact ⟨hf, hr⟩
  | succ n ih => exact ih hf.square (hf.duplicate.isReduced_reduced d.value_neg)

/-- One more squaring is the square of what is there. -/
theorem squareTimes_succ (d : Discriminant) (n : Nat) (f : Form) :
    squareTimes d (n + 1) f = square d (squareTimes d n f) := by
  induction n generalizing f with
  | zero => rfl
  | succ n ih => rw [squareTimes, ih, squareTimes]

end Form

end VerifiableDelay
