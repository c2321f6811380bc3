import VerifiableDelay.Form.Compose
import VerifiableDelay.Proofs.Euclid.Bezout
import VerifiableDelay.Proofs.Euclid.Partial
import VerifiableDelay.Proofs.Form.Reduction
/-!
# Concordant forms

Two forms are composed by way of a multiplier `k` that makes their middle
coefficients agree modulo the leading ones, freed of a factor `e` that
divides them and the half sum. What these numbers have to satisfy is
`Concordant`; the composite is then written out with exact divisions
(`composeDirect`), and has the discriminant of the two. **The method by
partial remainders gives a form of the same class** (`composePartial_spec`):
the matrix of the remainder sequence is, up to signs, the substitution that
leads there.
-/

namespace VerifiableDelay

/-- The substitution that the matrix of a remainder sequence is, with the
signs that its cofactors carry. -/
def Descent.unimodular (n : Descent) : Unimodular where
  p := -(n.sign * n.r)
  q := -n.p
  r := n.sign * n.s
  s := n.q
  det_eq := by linear_combination n.sign * n.det_eq + n.sign_mul_sign

namespace Form

variable {D : Int} {f g : Form} {s m e a₁ a₂ k : Int}

/-- What the numbers satisfy that `f` and `g` are composed by: half the sum
and half the difference of the middle coefficients, a common factor, the
leading coefficients without it, and the multiplier. -/
structure Concordant (f g : Form) (s m e a₁ a₂ k : Int) : Prop where
  half_sum : f.b + g.b = 2 * s
  half_difference : f.b - g.b = 2 * m
  factor_pos : 0 < e
  left_eq : f.a = e * a₁
  right_eq : g.a = e * a₂
  factor_dvd : e ∣ s
  dvd_difference : a₁ ∣ a₂ * k - m
  dvd_sum : e * a₁ ∣ s * k + g.c * e

/-- Middle coefficients have the parity of the discriminant. -/
theorem emod_two_b (f : Form) : f.b % 2 = f.discriminant % 2 := by
  have h : f.discriminant = f.b * f.b - 2 * (2 * (f.a * f.c)) := by
    simp only [discriminant]
    ring
  rcases Int.emod_two_eq_zero_or_one f.b with hb | hb
  · have : f.b * f.b % 2 = 0 := by rw [Int.mul_emod, hb]; rfl
    omega
  · have : f.b * f.b % 2 = 1 := by rw [Int.mul_emod, hb]; rfl
    omega

namespace Concordant

theorem left_pos (h : Concordant f g s m e a₁ a₂ k) (hf : f.Definite D) : 0 < a₁ :=
  (mul_pos_iff_of_pos_left h.factor_pos).1 (h.left_eq ▸ hf.leading_pos)

theorem right_pos (h : Concordant f g s m e a₁ a₂ k) (hg : g.Definite D) : 0 < a₂ :=
  (mul_pos_iff_of_pos_left h.factor_pos).1 (h.right_eq ▸ hg.leading_pos)

theorem b_eq (h : Concordant f g s m e a₁ a₂ k) : g.b = s - m := by
  have := h.half_sum
  have := h.half_difference
  omega

theorem dvd_half (h : Concordant f g s m e a₁ a₂ k) : a₁ ∣ s * k + g.c * e :=
  (Dvd.intro_left e rfl).trans h.dvd_sum

/-- **The division of the composite written out is exact.** -/
theorem dvd_direct (h : Concordant f g s m e a₁ a₂ k) :
    a₁ ∣ (g.b + a₂ * k) * k + g.c * e := by
  have heq : (g.b + a₂ * k) * k + g.c * e = (s * k + g.c * e) + (a₂ * k - m) * k := by
    rw [h.b_eq]
    ring
  rw [heq]
  exact dvd_add h.dvd_half (h.dvd_difference.mul_right k)

/-- **The composite written out has the discriminant of the two.** -/
theorem definite_direct (h : Concordant f g s m e a₁ a₂ k) (hf : f.Definite D)
    (hg : g.Definite D) : (composeDirect a₁ a₂ g.b (g.c * e) k).Definite D := by
  refine ⟨mul_pos (h.right_pos hg) (h.left_pos hf), ?_⟩
  have hdisc := hg.discriminant_eq
  simp only [discriminant, h.right_eq] at hdisc
  have hdiv := Int.mul_tdiv_cancel' h.dvd_direct
  simp only [composeDirect, discriminant]
  linear_combination hdisc - 4 * a₂ * hdiv

/-- The coefficients of the composite written out, after its division. -/
theorem direct_eq (h : Concordant f g s m e a₁ a₂ k) (ha₁ : a₁ ≠ 0) {u v : Int}
    (hu : a₂ * k - m = a₁ * u) (hv : s * k + g.c * e = a₁ * v) :
    composeDirect a₁ a₂ g.b (g.c * e) k = ⟨a₂ * a₁, 2 * (a₂ * k) + g.b, u * k + v⟩ := by
  have hdiv : ((g.b + a₂ * k) * k + g.c * e).tdiv a₁ = u * k + v := by
    refine Int.tdiv_eq_of_eq_mul_right ha₁ ?_
    rw [h.b_eq]
    linear_combination k * hu + hv
  rw [composeDirect, hdiv]

/-- **What is divided by the leading coefficient has it as a factor**, where
the partial sequence has come to. -/
theorem partial_terms {bound u v : Int} (hu : a₂ * k - m = a₁ * u)
    (hv : s * k + g.c * e = a₁ * v) {n : Descent} {x : Remainders} (hx : x.Stage a₁ k bound n) :
    m * x.coLower + a₂ * x.lower = a₁ * (n.sign * (n.s * u - a₂ * n.r)) ∧
      s * x.lower - g.c * e * x.coLower = a₁ * (n.sign * (n.s * v - s * n.r)) := by
  rw [hx.coLower_eq, hx.leads.lower_eq]
  constructor
  · linear_combination n.sign * n.s * hu
  · linear_combination n.sign * n.s * hv

/-- So the divisions by it are exact. -/
theorem dvd_partial (h : Concordant f g s m e a₁ a₂ k) {bound : Int} {n : Descent}
    {x : Remainders} (hx : x.Stage a₁ k bound n) :
    a₁ ∣ m * x.coLower + a₂ * x.lower ∧ a₁ ∣ s * x.lower - g.c * e * x.coLower := by
  obtain ⟨u, hu⟩ := h.dvd_difference
  obtain ⟨v, hv⟩ := h.dvd_half
  obtain ⟨hm₁, hm₂⟩ := partial_terms hu hv hx
  exact ⟨Dvd.intro _ hm₁.symm, Dvd.intro _ hm₂.symm⟩

/-- **The leading coefficient** the partial sequence comes to is that of the
composite after the substitution of its matrix, up to the matrix's sign. -/
theorem partial_leading (h : Concordant f g s m e a₁ a₂ k) (ha₁ : a₁ ≠ 0) {bound : Int}
    {n : Descent} {x : Remainders} (hx : x.Stage a₁ k bound n) :
    x.lower * (m * x.coLower + a₂ * x.lower).tdiv a₁ -
        x.coLower * (s * x.lower - g.c * e * x.coLower).tdiv a₁ =
      ((composeDirect a₁ a₂ g.b (g.c * e) k).substitute n.unimodular).a := by
  obtain ⟨u, hu⟩ := h.dvd_difference
  obtain ⟨v, hv⟩ := h.dvd_half
  obtain ⟨hm₁, hm₂⟩ := partial_terms hu hv hx
  rw [hm₁, hm₂, Int.mul_tdiv_cancel_left _ ha₁, Int.mul_tdiv_cancel_left _ ha₁,
    h.direct_eq ha₁ hu hv, hx.coLower_eq, hx.leads.lower_eq, h.b_eq]
  simp only [substitute, value, Descent.unimodular]
  linear_combination (n.r * n.s * n.sign * n.sign) * hu

/-- **The middle coefficient** of the composite after that substitution is
the quotient that the method by partial remainders forms. -/
theorem partial_middle (h : Concordant f g s m e a₁ a₂ k) (ha₁ : a₁ ≠ 0) {bound : Int}
    {n : Descent} {x : Remainders} (hx : x.Stage a₁ k bound n) :
    let h' := (composeDirect a₁ a₂ g.b (g.c * e) k).substitute n.unimodular
    2 * (a₂ * x.lower - n.sign * h'.a * x.coUpper) = x.coLower * (h'.b + g.b) := by
  obtain ⟨u, hu⟩ := h.dvd_difference
  obtain ⟨v, hv⟩ := h.dvd_half
  have hlower := hx.leads.lower_eq
  have hdet := n.det_eq
  rw [h.direct_eq ha₁ hu hv, hx.coLower_eq, hx.coUpper_eq]
  simp only [substitute, value, Descent.unimodular]
  rcases n.sign_eq with hε | hε
  · rw [hε] at hlower hdet ⊢
    linear_combination (2 * a₂) * hlower + (2 * a₁ * a₂ * n.r - (2 * a₂ * k + g.b) * n.s) * hdet
  · rw [hε] at hlower hdet ⊢
    linear_combination (2 * a₂) * hlower + (2 * a₁ * a₂ * n.r - (2 * a₂ * k + g.b) * n.s) * hdet

end Concordant

/-- **The last coefficient** is left to the discriminant: what is divided for
it is four times the product of the outer ones, each with the sign `ε`. -/
theorem Definite.sub_discriminant_eq {h : Form} (hh : h.Definite D) {ε : Int}
    (hε : ε = 1 ∨ ε = -1) {b r : Int} (hb : b = (h.shift r).b) :
    b * b - D = ε * h.a * (4 * (ε * (h.shift r).c)) := by
  have hd := (discriminant_shift h r).trans hh.discriminant_eq
  have hεε : ε * ε = 1 := by rcases hε with h | h <;> simp [h]
  have hprod : b * b - D = 4 * (h.a * (h.shift r).c) := by
    rw [hb]
    simp only [discriminant] at hd
    rw [← hd]
    simp only [shift]
    ring
  rw [hprod]
  linear_combination (-4 * h.a * (h.shift r).c) * hεε

/-- A sign does not make the leading coefficient zero. -/
theorem Definite.sign_mul_a_ne_zero {h : Form} (hh : h.Definite D) {ε : Int}
    (hε : ε = 1 ∨ ε = -1) : ε * h.a ≠ 0 := by
  have := hh.leading_pos
  rcases hε with rfl | rfl <;> omega

/-- Both orders of the division by four and by the leading coefficient, whose
sign is `ε`, give a shift of the form whose first coefficients the others
are. -/
theorem withPositiveLeading_eq {h : Form} (hh : h.Definite D) {ε : Int} (hε : ε = 1 ∨ ε = -1)
    {b r : Int} (hb : b = (h.shift r).b) :
    withPositiveLeading ⟨ε * h.a, b, (b * b - D).tdiv (ε * h.a) / 4⟩ = h.shift r ∧
      withPositiveLeading ⟨ε * h.a, b, (b * b - D).tdiv (4 * (ε * h.a))⟩ = h.shift r := by
  have ha := hh.leading_pos
  have hne := hh.sign_mul_a_ne_zero hε
  have hprod := hh.sub_discriminant_eq hε hb
  have hquot : (b * b - D).tdiv (ε * h.a) = 4 * (ε * (h.shift r).c) :=
    Int.tdiv_eq_of_eq_mul_right hne hprod
  have hquot' : (b * b - D).tdiv (4 * (ε * h.a)) = ε * (h.shift r).c := by
    refine Int.tdiv_eq_of_eq_mul_right (mul_ne_zero four_ne_zero hne) ?_
    rw [hprod]
    ring
  rw [hquot, hquot', Int.mul_ediv_cancel_left _ four_ne_zero, and_self, withPositiveLeading]
  rcases hε with rfl | rfl
  · rw [if_neg (by simp only; omega), one_mul, one_mul, hb]
    rfl
  · rw [if_pos (by simp only; omega), neg_one_mul, neg_one_mul, neg_neg, neg_neg, hb]
    rfl

/-- A floor remainder differs by a multiple of twice the leading
coefficient, so it is the middle coefficient of a shift. -/
theorem exists_shift_of_fmod (h : Form) {ε : Int} (hε : ε = 1 ∨ ε = -1) (b : Int)
    (hb : b = h.b) : ∃ r, b.fmod (2 * (ε * h.a)) = (h.shift r).b := by
  subst hb
  rcases hε with rfl | rfl
  · refine ⟨-(h.b.fdiv (2 * (1 * h.a))), ?_⟩
    rw [Int.fmod_def]
    simp only [shift]
    ring
  · refine ⟨h.b.fdiv (2 * (-1 * h.a)), ?_⟩
    rw [Int.fmod_def]
    simp only [shift]
    ring

namespace Concordant

variable {d : Discriminant}

/-- What the method by partial remainders has formed before the last
coefficient: up to a sign and a shift, the first two of a form of the class
of the composite written out. Its lower cofactor is not zero and goes into
what it divides. -/
theorem exists_partial (h : Concordant f g s m e a₁ a₂ k) (hf : f.Definite d.value)
    (hg : g.Definite d.value) (hk : 0 ≤ k) (hka : k < a₁) (hbound : (d.bound : Int) ≤ a₁) :
    let x := partialGcd a₁ k d.bound
    let lower := x.lower * (m * x.coLower + a₂ * x.lower).tdiv a₁
    let upper := x.coLower * (s * x.lower - g.c * e * x.coLower).tdiv a₁
    ∃ (h' : Form) (ε r : Int), (composeDirect a₁ a₂ g.b (g.c * e) k).Equivalent h' ∧
      h'.Definite d.value ∧ (ε = 1 ∨ ε = -1) ∧
      (if x.coLower < 0 then lower - upper else upper - lower) = ε * h'.a ∧
      ((2 * (a₂ * x.lower - ε * h'.a * x.coUpper)).tdiv x.coLower - g.b).fmod (2 * (ε * h'.a)) =
        (h'.shift r).b ∧
      x.coLower ≠ 0 ∧ x.coLower ∣ 2 * (a₂ * x.lower - ε * h'.a * x.coUpper) := by
  have ha₁ : a₁ ≠ 0 := (h.left_pos hf).ne'
  obtain ⟨n, hx, -, -⟩ := partialGcd_spec hk hka (Int.natCast_nonneg d.bound) hbound
  have hs := hx.leads.s_pos hka.le hx.lower_nonneg hx.lower_lt
  have hlead := h.partial_leading ha₁ hx
  have hmid := h.partial_middle ha₁ hx
  have hequiv : (composeDirect a₁ a₂ g.b (g.c * e) k).Equivalent
      ((composeDirect a₁ a₂ g.b (g.c * e) k).substitute n.unimodular) := ⟨_, rfl⟩
  have hdef := (h.definite_direct hf hg).of_equivalent d.value_neg hequiv
  have hco : (partialGcd a₁ k d.bound).coLower ≠ 0 := by
    rw [hx.coLower_eq]
    rcases n.sign_eq with hε | hε <;> rw [hε] <;> omega
  have hb : (2 * (a₂ * (partialGcd a₁ k d.bound).lower - n.sign *
        ((composeDirect a₁ a₂ g.b (g.c * e) k).substitute n.unimodular).a *
        (partialGcd a₁ k d.bound).coUpper)).tdiv (partialGcd a₁ k d.bound).coLower - g.b =
      ((composeDirect a₁ a₂ g.b (g.c * e) k).substitute n.unimodular).b := by
    rw [hmid, Int.mul_tdiv_cancel_left _ hco]
    ring
  obtain ⟨r, hr⟩ := exists_shift_of_fmod _ n.sign_eq _ hb
  refine ⟨_, n.sign, r, hequiv, hdef, n.sign_eq, ?_, hr, hco, Dvd.intro _ hmid.symm⟩
  -- the sign of the lower cofactor is that of the matrix, turned around
  have hcoLower := hx.coLower_eq
  rcases n.sign_eq with hε | hε
  · rw [hε, one_mul] at hcoLower ⊢
    rw [if_pos (by omega), hlead]
  · rw [hε] at hcoLower ⊢
    rw [if_neg (by omega), ← hlead]
    ring

/-- **The method by partial remainders gives a form of the class** of the
composite written out. -/
theorem equivalent_composePartial (h : Concordant f g s m e a₁ a₂ k) (hf : f.Definite d.value)
    (hg : g.Definite d.value) (hk : 0 ≤ k) (hka : k < a₁) (hbound : (d.bound : Int) ≤ a₁) :
    (composeDirect a₁ a₂ g.b (g.c * e) k).Equivalent
      (composePartial d a₁ a₂ g.b (g.c * e) k s m) := by
  obtain ⟨h', ε, r, hequiv, hdef, hε, ha, hb, -⟩ := h.exists_partial hf hg hk hka hbound
  refine hequiv.trans ?_
  rw [composePartial]
  simp only [ha]
  rw [(withPositiveLeading_eq hdef hε hb).1]
  exact equivalent_shift h' r

/-- **The method for squares** is that for two forms that are one: nothing
is left of half their difference, and what is divided by the leading
coefficient is a multiple of it in sight. -/
theorem duplicatePartial_eq (h : Concordant f f s 0 e a₁ a₁ k) (hf : f.Definite d.value)
    (hk : 0 ≤ k) (hka : k < a₁) (hbound : (d.bound : Int) ≤ a₁) :
    duplicatePartial d a₁ f.b (f.c * e) k = composePartial d a₁ a₁ f.b (f.c * e) k s 0 := by
  have ha₁ : a₁ ≠ 0 := (h.left_pos hf).ne'
  obtain ⟨h', ε, r, -, hdef, hε, ha, hb, -⟩ := h.exists_partial hf hf hk hka hbound
  obtain ⟨hcompose, hduplicate⟩ := withPositiveLeading_eq hdef hε hb
  rw [composePartial]
  simp only [ha]
  rw [hcompose]
  rw [zero_mul, zero_add, Int.mul_tdiv_cancel_left _ ha₁, (by simpa using h.b_eq.symm : s = f.b)]
    at ha
  rw [duplicatePartial]
  simp only [neg_sub, ha]
  exact hduplicate

end Concordant

end Form

end VerifiableDelay
