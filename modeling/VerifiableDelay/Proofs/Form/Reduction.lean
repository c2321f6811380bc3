import VerifiableDelay.Proofs.Form.Substitution
import Mathlib.Algebra.Group.Int.Units
import Mathlib.Algebra.Order.Ring.Abs
/-!
# Reduction

The loop of reduction ends: every swap it makes puts a smaller coefficient
in front, but for the last, which settles a sign. What it ends at is
reduced, and reduced forms stand still. **A class has one reduced form**
(`eq_of_equivalent`): its leading coefficient is the least value the class
takes, and the outer one the least it takes away from the multiples of the
first.
-/

namespace VerifiableDelay

namespace Form

variable {D : Int} {f g : Form}

/-- Where normalizing puts the middle coefficient. -/
def Normal (f : Form) : Prop := -f.a < f.b ∧ f.b ≤ f.a

theorem normalize_of_normal (h : f.Normal) : f.normalize = f := if_pos h

/-- **Normalizing does what it says**, for a positive leading coefficient:
the shift by the floor leaves a remainder modulo twice that. -/
theorem normal_normalize (ha : 0 < f.a) : f.normalize.Normal := by
  unfold normalize
  split
  · assumption
  · have hfloor : (f.a - f.b).fdiv (2 * f.a) = (f.a - f.b) / (2 * f.a) :=
      Int.fdiv_eq_ediv_of_nonneg _ (by omega)
    have hrem := Int.emod_add_mul_ediv (f.a - f.b) (2 * f.a)
    have hnonneg := Int.emod_nonneg (f.a - f.b) (b := 2 * f.a) (by omega)
    have hlt := Int.emod_lt_of_pos (f.a - f.b) (b := 2 * f.a) (by omega)
    simp only [Normal, shift, hfloor]
    constructor <;> linarith

/-- Once the outer coefficients are in order the loop has ended. -/
theorem settle_of_ordered (h : f.Ordered) (fuel : Nat) : f.settle fuel = f := by
  cases fuel with
  | zero => rfl
  | succ fuel => rw [settle, if_pos h]

/-- **The loop ends.** As many swaps as the leading coefficient counts are
enough: each brings a smaller one to the front, or settles the sign between
two that are equal. -/
theorem settle_spec (hD : D < 0) (fuel : Nat) (hf : f.Definite D) (hn : f.Normal)
    (hfuel : f.a < fuel) : (f.settle fuel).Normal ∧ (f.settle fuel).Ordered := by
  induction fuel generalizing f with
  | zero =>
    have := hf.leading_pos
    omega
  | succ fuel ih =>
    by_cases ho : f.Ordered
    · rw [settle_of_ordered ho]
      exact ⟨hn, ho⟩
    · have hc := hf.c_pos hD
      have hswap : f.swap.normalize.Definite D :=
        hf.of_equivalent hD ((equivalent_swap f).trans (equivalent_normalize _))
      have hnormal : f.swap.normalize.Normal := normal_normalize hc
      rw [settle, if_neg ho]
      rcases not_not.1 ho with hlt | ⟨heq, hneg⟩
      · refine ih hswap hnormal ?_
        rw [normalize_a]
        change f.c < fuel
        omega
      · -- the sign is settled: the swapped form is normal and in order already
        have hid : f.swap.normalize = f.swap := by
          refine normalize_of_normal ?_
          simp only [Normal, swap]
          have := hn.1
          omega
        have hord : f.swap.Ordered := by
          simp only [Ordered, swap]
          omega
        rw [hid, settle_of_ordered hord]
        exact ⟨hid ▸ hnormal, hord⟩

theorem isReduced_iff :
    f.isReduced = true ↔
      (f.b.natAbs : Int) ≤ f.a ∧ f.a ≤ f.c ∧ (f.a = f.c ∨ (f.b.natAbs : Int) = f.a → 0 ≤ f.b) := by
  simp only [isReduced, Bool.and_eq_true, decide_eq_true_eq, Bool.not_eq_true',
    Bool.and_eq_false_imp, Bool.or_eq_true, beq_iff_eq, decide_eq_false_iff_not, not_lt, and_assoc]

/-- A form is reduced if it is normal and in order, and the leading
coefficient is positive. -/
theorem isReduced_iff_normal (ha : 0 < f.a) : f.isReduced = true ↔ f.Normal ∧ f.Ordered := by
  rw [isReduced_iff]
  simp only [Normal, Ordered]
  omega

/-- **What reduction gives is reduced.** -/
theorem Definite.isReduced_reduced (hD : D < 0) (hf : f.Definite D) :
    f.reduced.isReduced = true := by
  rw [isReduced_iff_normal (hf.reduced hD).leading_pos, Form.reduced]
  have ha := hf.leading_pos
  refine settle_spec hD _ (hf.of_equivalent hD (equivalent_normalize f)) (normal_normalize ha) ?_
  rw [normalize_a]
  omega

/-- **A reduced form stands still.** -/
theorem reduced_of_isReduced (ha : 0 < f.a) (hr : f.isReduced = true) : f.reduced = f := by
  obtain ⟨hn, ho⟩ := (isReduced_iff_normal ha).1 hr
  rw [Form.reduced, normalize_of_normal hn, settle_of_ordered ho]

/-- A second reduction changes nothing. -/
theorem Definite.reduced_reduced (hD : D < 0) (hf : f.Definite D) : f.reduced.reduced = f.reduced :=
  reduced_of_isReduced (hf.reduced hD).leading_pos (hf.isReduced_reduced hD)

/-- A reduced form of negative discriminant is definite. -/
theorem definite_of_isReduced (hD : D < 0) (hr : f.isReduced = true) (hd : f.discriminant = D) :
    f.Definite D := by
  refine ⟨?_, hd⟩
  obtain ⟨hb, hac, -⟩ := isReduced_iff.1 hr
  by_contra ha
  have ha0 : f.a = 0 := by omega
  have hb0 : f.b = 0 := by omega
  simp only [discriminant, ha0, hb0] at hd
  omega

/-- Three times the square of a reduced form's leading coefficient is at
most the magnitude of its discriminant. -/
theorem three_mul_a_sq_le (ha : 0 < f.a) (hr : f.isReduced = true) :
    3 * f.a ^ 2 ≤ -f.discriminant := by
  obtain ⟨hb, hac, -⟩ := isReduced_iff.1 hr
  have hsq : f.b * f.b ≤ f.a * f.a := abs_le_iff_mul_self_le.1 (by
    rw [Int.abs_eq_natAbs, abs_of_pos ha]
    exact hb)
  have : f.a * f.a ≤ f.a * f.c := by gcongr
  simp only [discriminant]
  linarith [sq f.a]

/-- **The least values.** Away from the multiples of the first variable a
reduced form is at least its outer coefficient. -/
theorem c_le_value (ha : 0 < f.a) (hr : f.isReduced = true) (x : Int) {y : Int} (hy : y ≠ 0) :
    f.c ≤ f.value x y := by
  obtain ⟨hb, hac, -⟩ := isReduced_iff.1 hr
  have hxy : -(f.a * (|x| * |y|)) ≤ f.b * (x * y) := by
    have h : |f.b * (x * y)| ≤ f.a * (|x| * |y|) := by
      rw [abs_mul, abs_mul, Int.abs_eq_natAbs f.b]
      gcongr
    exact (abs_le.1 h).1
  have hy1 : 1 ≤ |y| := Int.one_le_abs hy
  have hx0 : 0 ≤ |x| := abs_nonneg x
  have hv : f.value x y = f.a * |x| ^ 2 + f.b * (x * y) + f.c * |y| ^ 2 := by
    rw [sq_abs, sq_abs, value]
    ring
  rw [hv]
  rcases le_or_gt |y| |x| with hle | hlt
  · nlinarith [mul_nonneg (mul_nonneg ha.le hx0) (sub_nonneg.2 hle), mul_self_nonneg (|y| - 1)]
  · -- where `x` is the smaller the outer coefficient pays for the mixed term
    have h1 : 0 ≤ |x| * (|y| - |x|) := mul_nonneg hx0 (by omega)
    have h2 : f.a * (|x| * (|y| - |x|)) ≤ f.c * (|x| * (|y| - |x|)) := by gcongr
    have h3 : 1 ≤ |y| ^ 2 - |x| * |y| + |x| ^ 2 := by nlinarith
    have h4 : f.c * 1 ≤ f.c * (|y| ^ 2 - |x| * |y| + |x| ^ 2) := by
      have : 0 ≤ f.c := by omega
      gcongr
    nlinarith

/-- Shifts of one another that are both normal are the same. -/
theorem shift_eq_of_normal (hf : f.Normal) {r : Int} (hg : (f.shift r).Normal) : f.shift r = f := by
  simp only [Normal, shift] at hf hg
  have ha : 0 < f.a := by omega
  have hr : r = 0 := by
    rcases lt_trichotomy r 0 with h | h | h
    · nlinarith
    · exact h
    · nlinarith
  rw [hr, shift_zero]

/-- A substitution that keeps the multiples of the first variable is a
shift. -/
theorem substitute_of_r_eq_zero {M : Unimodular} (h : M.r = 0) :
    f.substitute M = f.shift (M.q * M.s) := by
  obtain ⟨p, q, r, s, hdet⟩ := M
  subst h
  have hs : s = p := by
    rcases Int.eq_one_or_neg_one_of_mul_eq_one' (by linarith : p * s = 1) with ⟨h, h'⟩ | ⟨h, h'⟩
    all_goals rw [h, h']
  subst hs
  have hpp : s * s = 1 := by linarith
  simp only [substitute, value, shift, Form.mk.injEq]
  refine ⟨?_, ?_, ?_⟩
  · linear_combination f.a * hpp
  · linear_combination f.b * hpp
  · linear_combination (f.c - f.a * q * q) * hpp

/-- **A class has one reduced form.** -/
theorem eq_of_equivalent (hfa : 0 < f.a) (hga : 0 < g.a) (hf : f.isReduced = true)
    (hg : g.isReduced = true) (h : f.Equivalent g) : f = g := by
  have hd := h.discriminant_eq
  obtain ⟨M, rfl⟩ := h
  by_cases hr : M.r = 0
  · rw [substitute_of_r_eq_zero hr] at hg hga ⊢
    exact (shift_eq_of_normal ((isReduced_iff_normal hfa).1 hf).1
      ((isReduced_iff_normal hga).1 hg).1).symm
  · -- each form takes the leading value of the other off its own axis, so all four are equal
    have h1 : f.c ≤ (f.substitute M).a := c_le_value hfa hf M.p hr
    have h2 : (f.substitute M).c ≤ f.a := by
      have := c_le_value hga hg M.s (neg_ne_zero.2 hr)
      have hback := congrArg Form.a (substitute_inv f M)
      simp only [substitute, Unimodular.inv] at this hback ⊢
      exact this.trans hback.le
    revert hg hga hd h1 h2
    generalize f.substitute M = g
    intro hga hg hd h1 h2
    obtain ⟨-, hac, hsign⟩ := isReduced_iff.1 hf
    obtain ⟨-, hac', hsign'⟩ := isReduced_iff.1 hg
    have ha : g.a = f.a := by omega
    have hc : g.c = f.c := by omega
    have hb : g.b = f.b := by
      simp only [discriminant, ha, hc] at hd
      have hsq : g.b ^ 2 = f.b ^ 2 := by linarith [sq g.b, sq f.b]
      exact (pow_left_inj₀ (hsign' (.inl (by omega))) (hsign (.inl (by omega))) two_ne_zero).1 hsq
    obtain ⟨a, b, c⟩ := f
    obtain ⟨a', b', c'⟩ := g
    simp_all

/-- **Reduction decides proper equivalence.** -/
theorem reduced_eq_reduced_iff (hD : D < 0) (hf : f.Definite D) (hg : g.Definite D) :
    f.reduced = g.reduced ↔ f.Equivalent g := by
  constructor
  · intro h
    exact (equivalent_reduced f).trans (h ▸ (equivalent_reduced g).symm)
  · intro h
    exact eq_of_equivalent (hf.reduced hD).leading_pos (hg.reduced hD).leading_pos
      (hf.isReduced_reduced hD) (hg.isReduced_reduced hD)
      (((equivalent_reduced f).symm.trans h).trans (equivalent_reduced g))

/-- The form that begins with `a` and `b`, where there is one, is definite. -/
theorem definite_leading {a b : Int} (ha : 0 < a) (h : (b * b - D) % (4 * a) = 0) :
    Definite D ⟨a, b, (b * b - D) / (4 * a)⟩ := by
  refine ⟨ha, ?_⟩
  have hdiv := Int.mul_ediv_cancel' (Int.dvd_of_emod_eq_zero h)
  simp only [discriminant]
  linarith

/-- **A shift of the middle coefficient makes no difference** to the reduced
form that begins with it, nor to whether there is one. -/
theorem ofLeading_add_mul (d : Discriminant) (a b k : Int) :
    ofLeading d a (b + 2 * a * k) = ofLeading d a b := by
  unfold ofLeading
  by_cases ha : a ≤ 0
  · rw [if_pos ha, if_pos ha]
  · have hsq : (b + 2 * a * k) * (b + 2 * a * k) - d.value =
        (b * b - d.value) + 4 * a * (b * k + a * k * k) := by ring
    have hrem : ((b + 2 * a * k) * (b + 2 * a * k) - d.value) % (4 * a) =
        (b * b - d.value) % (4 * a) := by rw [hsq, Int.add_mul_emod_self_left]
    have hquot : ((b + 2 * a * k) * (b + 2 * a * k) - d.value) / (4 * a) =
        (b * b - d.value) / (4 * a) + (b * k + a * k * k) := by
      rw [hsq, Int.add_mul_ediv_left _ _ (by omega)]
    rw [if_neg ha, if_neg ha, hrem, hquot]
    by_cases hdvd : (b * b - d.value) % (4 * a) = 0
    · have hdef := definite_leading (not_le.1 ha) hdvd
      have hshift : (⟨a, b + 2 * a * k, (b * b - d.value) / (4 * a) + (b * k + a * k * k)⟩ : Form) =
          shift ⟨a, b, (b * b - d.value) / (4 * a)⟩ k := by
        simp only [shift, Form.mk.injEq, true_and]
        ring
      rw [if_neg (not_not.2 hdvd), if_neg (not_not.2 hdvd), hshift,
        (reduced_eq_reduced_iff d.value_neg (hdef.of_equivalent d.value_neg (equivalent_shift _ k))
          hdef).2 (equivalent_shift _ k).symm]
    · rw [if_pos hdvd, if_pos hdvd]

/-- **Reduction is canonical.** Of definite forms of a negative discriminant
it takes each to a reduced form of its class, and two to the same one just if
they are properly equivalent; so reduced forms are equivalent only if they
are equal, and a shift of the middle coefficient does not change the form
that is made of it. -/
theorem reduction_is_canonical (hD : D < 0) (hf : f.Definite D) (hg : g.Definite D) :
    (f.Equivalent f.reduced ∧ f.reduced.isReduced = true) ∧
      (f.reduced = g.reduced ↔ f.Equivalent g) ∧
      (f.isReduced = true → g.isReduced = true → f.Equivalent g → f = g) ∧
      ∀ (d : Discriminant) (a b k : Int),
        ofLeading d a (b + 2 * a * k) = ofLeading d a b := by
  refine ⟨⟨equivalent_reduced f, hf.isReduced_reduced hD⟩, reduced_eq_reduced_iff hD hf hg, ?_,
    ofLeading_add_mul⟩
  intro hrf hrg h
  exact eq_of_equivalent hf.leading_pos hg.leading_pos hrf hrg h

/-- Two forms of discriminant `-15` with equal outer coefficients, of which
one is reduced. -/
theorem reduction_is_canonical_15 :
    (Definite (-15) ⟨2, -1, 2⟩ ∧ Definite (-15) ⟨2, 1, 2⟩) ∧
      (reduced ⟨2, -1, 2⟩ = reduced ⟨2, 1, 2⟩ ↔ Equivalent ⟨2, -1, 2⟩ ⟨2, 1, 2⟩) := by
  have hf : Definite (-15) ⟨2, -1, 2⟩ := ⟨by decide, by decide⟩
  have hg : Definite (-15) ⟨2, 1, 2⟩ := ⟨by decide, by decide⟩
  exact ⟨⟨hf, hg⟩, (reduction_is_canonical (by decide) hf hg).2.1⟩

end Form

end VerifiableDelay
