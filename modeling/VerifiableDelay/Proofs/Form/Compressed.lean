import VerifiableDelay.Form.Compressed
import VerifiableDelay.Proofs.Euclid.Bezout
import VerifiableDelay.Proofs.Euclid.Partial
import VerifiableDelay.Proofs.Form.Reduction
import VerifiableDelay.Proofs.Integer.Roots
import Mathlib.Algebra.Squarefree.Basic
/-!
# Expanding compressed forms

The remainder at which the sequence of `a` and `|b|` stops is `t * |b|`
modulo `a` and its square is at most `a`, so it is the root that expanding
looks for, and times the inverse of `t` it is `|b|` again (`expand_eq`).
The one remainder in doubt has the square `a` itself, and then it is the
common divisor of `a` and `b`, and its square divides the discriminant.
**Expanding undoes compressing** for every other form
(`exists_of?_expand_of_restorable`), so for all of a discriminant that has no
such square (`exists_of?_expand`). In the case left over the square is zero
modulo `a`, and so is what is expanded
(`exists_of?_expand_of_not_restorable`).
-/

namespace VerifiableDelay

/-- **A form that its compressed representation stands for**: the leading
coefficient is one, or not the square of its common factor with the middle
one. -/
def Form.Restorable (f : Form) : Prop := f.a ≠ 1 → (Int.gcd f.a f.b : Int) * Int.gcd f.a f.b ≠ f.a

instance (f : Form) : Decidable f.Restorable := inferInstanceAs (Decidable (_ → _))

/-- Where the discriminant is squarefree every form is one. -/
theorem Form.Restorable.of_squarefree {f : Form} (hd : Squarefree f.discriminant) :
    f.Restorable := by
  intro hone hsquare
  set g : Int := (Int.gcd f.a f.b : Int)
  have hb : g ∣ f.b := Int.gcd_dvd_right _ _
  have hac : g * g ∣ 4 * (f.a * f.c) := hsquare ▸ ⟨4 * f.c, by ring⟩
  rcases Int.isUnit_iff.1 (hd g (dvd_sub (mul_dvd_mul hb hb) hac)) with h | h
  · exact hone (by rw [← hsquare, h, one_mul])
  · have : 0 ≤ g := Int.natCast_nonneg _
    omega

namespace Compressed

variable {a b d t x root : Int} {c : Compressed}

/-- The number whose root is extracted is congruent to the square of what the
cofactor times `x` is congruent to. -/
theorem square_emod_eq (hd : a ∣ d - x * x) (hmod : a ∣ t * x - root) :
    t * t % a * (d % a) % a = root * root % a := by
  rw [← Int.mul_emod]
  refine Int.ModEq.symm (Int.modEq_iff_dvd.2 ?_)
  have h : t * t * d - root * root =
      (d - x * x) * (t * t) + (t * x - root) * (t * x + root) := by ring
  rw [h]
  exact dvd_add (hd.mul_right _) (hmod.mul_right _)

/-- So it is the square of a small root. -/
theorem square_emod (hd : a ∣ d - x * x) (hlt : root * root < a) (hmod : a ∣ t * x - root) :
    t * t % a * (d % a) % a = root * root := by
  rw [square_emod_eq hd hmod]
  exact Int.emod_eq_of_lt (mul_self_nonneg root) hlt

/-- The root times the inverse of the cofactor. -/
theorem root_mul_inverse_emod {u l r : Int} (hmod : a ∣ t * x - root) (hu : a ∣ u - t)
    (hbez : u * l + a * r = 1) : root * (l % a) % a = x % a := by
  rw [Int.mul_emod, Int.emod_emod_of_dvd _ dvd_rfl, ← Int.mul_emod]
  refine Int.ModEq.symm (Int.modEq_iff_dvd.2 ?_)
  obtain ⟨y, hy⟩ := hmod
  obtain ⟨z, hz⟩ := hu
  exact ⟨-(y * l + z * x * l + x * r), by linear_combination x * hbez - l * hy - (x * l) * hz⟩

/-- The cofactor is inverted as a number that is not negative. -/
theorem exists_unit (hcoprime : Int.gcd c.t c.a = 1) :
    ∃ u, (if c.t < 0 then c.t + c.a else c.t) = u ∧ c.a ∣ u - c.t ∧ (Bezout.of u c.a).gcd = 1 := by
  obtain ⟨u, hu, z, hz⟩ : ∃ u, (if c.t < 0 then c.t + c.a else c.t) = u ∧ c.a ∣ u - c.t := by
    refine ⟨_, rfl, ?_⟩
    split <;> simp
  refine ⟨u, hu, ⟨z, hz⟩, ?_⟩
  rw [Bezout.gcd_of, show u = c.t + c.a * z by linarith, Int.gcd_add_mul_left_left, hcoprime]
  rfl

/-- **What expanding gives**, where the numbers of the representation fit
together: a small root that is `t * x` modulo `a`, and the discriminant that
is the square of `x`. -/
theorem expand_eq (ha : 0 < c.a) (ht : c.t ≠ 0) (hcoprime : Int.gcd c.t c.a = 1) (hx : 0 ≤ x)
    (hd : c.a ∣ d - x * x) (hroot : 0 ≤ root) (hlt : root * root < c.a)
    (hmod : c.a ∣ c.t * x - root) (hb₀ : c.b₀ = x / c.a) (hg : 0 < c.g) :
    c.expand d = .ok (c.a * c.g, if c.negative then -x else x) := by
  obtain ⟨u, hu, hdvd, hgcd⟩ := exists_unit hcoprime
  have hbez := Bezout.left_add_right u c.a
  rw [hgcd] at hbez
  have hsplit := Int.emod_add_mul_ediv x c.a
  have hquot := Int.ediv_nonneg hx ha.le
  have hb : (if 0 < c.b₀ then x % c.a + c.a * c.b₀ else x % c.a) = x := by
    rw [hb₀]
    split
    · exact hsplit
    · rw [show x / c.a = 0 by omega, mul_zero, add_zero] at hsplit
      exact hsplit
  have hprod : (if 1 < c.g then c.a * c.g else c.a) = c.a * c.g := by
    split
    · rfl
    · rw [show c.g = 1 by omega, mul_one]
  rw [expand, if_neg (by omega), if_neg ht]
  simp only [hu, hgcd, square_emod hd hlt hmod, floorSqrt_natAbs_mul_self hroot,
    root_mul_inverse_emod hmod hdvd hbez, hb, hprod, ne_eq, not_true_eq_false, if_false]

/-- **What it gives where the root is not small**: its square is nothing
modulo `a`, and so is the root that is extracted. -/
theorem expand_of_square_eq (ha : 0 < c.a) (ht : c.t ≠ 0) (hcoprime : Int.gcd c.t c.a = 1)
    (hd : c.a ∣ d - x * x) (hsquare : root * root = c.a) (hmod : c.a ∣ c.t * x - root)
    (hb₀ : c.b₀ = 0) (hg : c.g = 1) : c.expand d = .ok (c.a, 0) := by
  obtain ⟨u, hu, -, hgcd⟩ := exists_unit hcoprime
  have hzero : c.t * c.t % c.a * (d % c.a) % c.a = 0 := by
    rw [square_emod_eq hd hmod, hsquare, Int.emod_self]
  have hroot : (floorSqrt (0 : Int).natAbs : Int) = 0 := floorSqrt_natAbs_mul_self le_rfl
  rw [expand, if_neg (by omega), if_neg ht]
  simp only [hu, hgcd, hzero, hroot, hb₀, hg]
  simp

/-- Where the sequence of `a` and `x` stops at the root of `a`. -/
theorem exists_stage (hx : 0 ≤ x) (hxa : x < a) :
    ∃ m : Descent,
      (partialGcd a x (floorSqrt a.natAbs)).Stage a x (floorSqrt a.natAbs) m ∧ 0 < m.s ∧
      (partialGcd a x (floorSqrt a.natAbs)).lower ≤ floorSqrt a.natAbs ∧
      (floorSqrt a.natAbs : Int) * floorSqrt a.natAbs ≤ a ∧
      (0 < x → (Int.gcd a x : Int) ≤ floorSqrt a.natAbs →
        0 < (partialGcd a x (floorSqrt a.natAbs)).lower) := by
  have hle : (floorSqrt a.natAbs : Int) * floorSqrt a.natAbs ≤ a := by
    have := floorSqrt_mul_self_le a.natAbs
    zify at this
    rwa [abs_of_nonneg (by omega)] at this
  have hla : (floorSqrt a.natAbs : Int) ≤ a := by
    have := Nat.le_mul_self (floorSqrt a.natAbs)
    zify at this
    exact this.trans hle
  obtain ⟨m, hm, hlower, hpos⟩ := partialGcd_spec hx hxa (Int.natCast_nonneg _) hla
  exact ⟨m, hm, hm.leads.s_pos hxa.le hm.lower_nonneg hm.lower_lt, hlower, hle, hpos⟩

/-- **The root that the sequence stops at**, which is the cofactor times `x`
modulo `a`. It is not zero where the common divisor is no larger. -/
theorem exists_root (hx : 0 ≤ x) (hxa : x < a) :
    ∃ root, 0 ≤ root ∧ root * root ≤ a ∧
      -(partialGcd a x (floorSqrt a.natAbs)).coLower ≠ 0 ∧
      a ∣ -(partialGcd a x (floorSqrt a.natAbs)).coLower * x - root ∧
      (0 < x → (Int.gcd a x : Int) * Int.gcd a x ≤ a → 0 < root) := by
  obtain ⟨m, hm, hs, hlower, hle, hpos⟩ := exists_stage hx hxa
  refine ⟨_, hm.lower_nonneg, (mul_self_le_mul_self hm.lower_nonneg hlower).trans hle, ?_, ?_, ?_⟩
  · rw [hm.coLower_eq, neg_neg]
    rcases m.sign_eq with h | h <;> rw [h] <;> omega
  · rw [hm.coLower_eq, hm.leads.lower_eq]
    exact ⟨m.sign * m.r, by ring⟩
  · intro hx0 hgcd
    refine hpos hx0 ?_
    by_contra hlt
    have hsucc := lt_succ_floorSqrt_mul_self a.natAbs
    zify at hsucc
    rw [abs_of_nonneg (by omega)] at hsucc
    have hroot : (floorSqrt a.natAbs : Int) + 1 ≤ Int.gcd a x := by omega
    have := mul_self_le_mul_self (by positivity) hroot
    omega

/-- **What compressing gives**, where the coefficients are not equal: one
description of both of its cases. -/
theorem of?_eq (hb : (b.natAbs : Int) < a) {g : Int}
    (ht : -(partialGcd a b.natAbs (floorSqrt a.natAbs)).coLower = t) (hg : (Int.gcd a t : Int) = g) :
    of? a b = some ⟨a / g, t / g, g, b.natAbs / (a / g), b < 0⟩ := by
  rw [of?, if_neg (by omega), if_neg (by omega), ht]
  simp only [hg]
  split
  · rename_i h
    rw [h, Int.ediv_one, Int.ediv_one, Int.ediv_eq_zero_of_lt (by omega) hb]
  · have ha : a.tdiv g = a / g := Int.tdiv_eq_ediv_of_dvd (hg ▸ Int.gcd_dvd_left _ _)
    have htt : t.tdiv g = t / g := Int.tdiv_eq_ediv_of_dvd (hg ▸ Int.gcd_dvd_right _ _)
    rw [ha, htt]
    have hquot : (if b < 0 then -b.tdiv (a / g) else b.tdiv (a / g)) = b.natAbs / (a / g) := by
      split
      · rw [← Int.neg_tdiv, ← Int.ofNat_natAbs_of_nonpos (by omega),
          Int.tdiv_eq_ediv_of_nonneg (by omega)]
      · rw [Int.tdiv_eq_ediv_of_nonneg (by omega), Int.natAbs_of_nonneg (by omega)]
    rw [hquot]

/-- The magnitudes of a representation are not negative, the cofactor's
sign apart. -/
theorem of?_nonneg (ha : 0 < a) (hb : a = b ∨ (b.natAbs : Int) < a) (h : of? a b = some c) :
    0 ≤ c.a ∧ 0 ≤ c.g ∧ 0 ≤ c.b₀ := by
  rcases hb with rfl | hlt
  · rw [of?, if_pos rfl, Option.some_inj] at h
    subst h
    exact ⟨ha.le, le_rfl, le_rfl⟩
  · rw [of?_eq hlt rfl rfl, Option.some_inj] at h
    subst h
    have hquot : 0 ≤ a / (Int.gcd a (-(partialGcd a b.natAbs (floorSqrt a.natAbs)).coLower) : Int) :=
      Int.ediv_nonneg ha.le (by positivity)
    exact ⟨hquot, by positivity, Int.ediv_nonneg (by positivity) hquot⟩

variable {f : Form}

/-- In a reduced form the middle coefficient is the leading one or smaller. -/
theorem eq_or_natAbs_lt (hr : f.isReduced = true) : f.a = f.b ∨ (f.b.natAbs : Int) < f.a := by
  obtain ⟨hb, -, hsign⟩ := Form.isReduced_iff.1 hr
  omega

/-- The square of the middle coefficient is the discriminant, modulo the leading
one. -/
theorem dvd_discriminant_sub (f : Form) : f.a ∣ f.discriminant - f.b.natAbs * f.b.natAbs := by
  rw [Int.natAbs_mul_self']
  exact ⟨-(4 * f.c), by simp only [Form.discriminant]; ring⟩

/-- What divides the leading coefficient and the product that leaves the root
modulo it divides the root. -/
theorem dvd_root {g : Int} (hga : g ∣ f.a) (hgt : g ∣ t * f.b.natAbs)
    (hmod : f.a ∣ t * f.b.natAbs - root) : g ∣ root := by
  have := dvd_sub hgt (hga.trans hmod)
  rwa [sub_sub_cancel] at this

/-- If the root's square is `a` itself, and the root divides `b`, the cofactor is
prime to `a`. -/
theorem gcd_eq_one_of_root_mul_root (hsquare : root * root = f.a) (hroot : root ≠ 0)
    (hrb : root ∣ f.b.natAbs) (hmod : f.a ∣ t * f.b.natAbs - root) : Int.gcd f.a t = 1 := by
  obtain ⟨x, hx⟩ := hrb
  obtain ⟨y, hy⟩ := hmod
  rw [← hsquare, hx] at hy
  have hunit : t * x - root * y = 1 := mul_left_cancel₀ hroot (by linear_combination hy)
  have hprime : IsCoprime root t := ⟨-y, x, by linear_combination hunit⟩
  rw [← hsquare]
  exact Int.isCoprime_iff_gcd_eq_one.1 (hprime.mul_left hprime)

/-- The remainder in doubt: if the root's square is `a` itself, and the
cofactor is prime to `a`, the root is the common divisor. -/
theorem gcd_mul_gcd_eq (hroot : root * root = f.a) (hcoprime : Int.gcd f.a t = 1)
    (hmod : f.a ∣ t * f.b.natAbs - root) : (Int.gcd f.a f.b : Int) * Int.gcd f.a f.b = f.a := by
  have hra : root ∣ f.a := hroot ▸ Dvd.intro _ rfl
  have hcop : Int.gcd root t = 1 :=
    Nat.dvd_one.1 (hcoprime ▸ Int.gcd_dvd_gcd_of_dvd_left t hra)
  have hrb : root ∣ f.b := by
    have h : root ∣ t * f.b.natAbs := by
      have := dvd_add (hra.trans hmod) (dvd_refl root)
      rwa [sub_add_cancel] at this
    exact Int.dvd_natAbs.1 (Int.dvd_of_dvd_mul_right_of_gcd_one h hcop)
  have hgr : (Int.gcd f.a f.b : Int) ∣ root :=
    dvd_root (Int.gcd_dvd_left f.a f.b) ((Int.dvd_natAbs.2 (Int.gcd_dvd_right _ _)).mul_left t) hmod
  have habs := Int.natAbs_eq_of_dvd_dvd hgr (Int.dvd_coe_gcd hra hrb)
  rcases Int.natAbs_eq_natAbs_iff.1 habs with h | h
  · rw [h, hroot]
  · rw [h, neg_mul_neg, hroot]

/-- **It is in no doubt for a form that can be restored.** -/
theorem root_mul_root_lt (hodd : ¬ (4 : Int) ∣ f.discriminant) (hf : f.Restorable)
    (hlt : (f.b.natAbs : Int) < f.a) (hle : root * root ≤ f.a) (hcoprime : Int.gcd f.a t = 1)
    (hmod : f.a ∣ t * f.b.natAbs - root) : root * root < f.a := by
  refine lt_of_le_of_ne hle fun heq => ?_
  have ha : f.a = 1 := by
    by_contra hone
    exact hf hone (gcd_mul_gcd_eq heq hcoprime hmod)
  -- then the middle coefficient is zero, and the discriminant a multiple of four
  have hb : f.b = 0 := by omega
  exact hodd ⟨-f.c, by simp only [Form.discriminant, ha, hb]; ring⟩

/-- The same after a common factor of `a` and the cofactor is taken out. -/
theorem root_mul_root_lt_of_factor {g a' t' root' : Int} (hodd : ¬ (4 : Int) ∣ f.discriminant)
    (hf : f.Restorable) (hlt : (f.b.natAbs : Int) < f.a) (hg : (Int.gcd f.a t : Int) = g) (ha : f.a = g * a')
    (ht : t = g * t') (hroot : root = g * root') (hgpos : 0 < g) (hpos : 0 < a')
    (hle : root * root ≤ f.a) (hmod : f.a ∣ t * f.b.natAbs - root) : root' * root' < a' := by
  by_cases hone : g = 1
  · subst hone
    rw [one_mul] at ha ht hroot
    rw [← ha, ← hroot]
    exact root_mul_root_lt hodd hf hlt hle (by exact_mod_cast hg) hmod
  · have h : g * (root' * root') ≤ a' := by
      refine le_of_mul_le_mul_left ?_ hgpos
      rw [ha, hroot] at hle
      linarith
    have htwo : 2 * (root' * root') ≤ g * (root' * root') :=
      mul_le_mul_of_nonneg_right (by omega) (mul_self_nonneg root')
    linarith [mul_self_nonneg root']

/-- **Expanding undoes compressing**, for the reduced forms that can be
restored. -/
theorem exists_of?_expand_of_restorable (hf : f.Definite d) (hr : f.isReduced = true)
    (hodd : ¬ (4 : Int) ∣ d) (hres : f.Restorable) :
    ∃ c, of? f.a f.b = some c ∧ c.expand d = .ok (f.a, f.b) := by
  have ha := hf.leading_pos
  have hdisc := hf.discriminant_eq
  rcases eq_or_natAbs_lt hr with hab | hlt
  · refine ⟨_, if_pos hab, ?_⟩
    rw [expand, if_neg (by simp only; omega), if_pos rfl, ← hab]
  obtain ⟨root, hroot, hle, ht, hmod, -⟩ := exists_root (by positivity) hlt
  refine ⟨_, of?_eq hlt rfl rfl, ?_⟩
  generalize -(partialGcd f.a f.b.natAbs (floorSqrt f.a.natAbs)).coLower = t at ht hmod ⊢
  generalize hg : (Int.gcd f.a t : Int) = g
  have hgcd : 0 < Int.gcd f.a t := Int.gcd_pos_of_ne_zero_left _ ha.ne'
  have hgpos : 0 < g := by omega
  obtain ⟨a', ha'⟩ : g ∣ f.a := hg ▸ Int.gcd_dvd_left _ _
  obtain ⟨t', ht'⟩ : g ∣ t := hg ▸ Int.gcd_dvd_right _ _
  obtain ⟨root', hroot'⟩ : g ∣ root :=
    dvd_root (Dvd.intro _ ha'.symm) ((Dvd.intro _ ht'.symm).mul_right _) hmod
  have hpos : 0 < a' := (mul_pos_iff_of_pos_left hgpos).1 (ha' ▸ ha)
  have hsmall := root_mul_root_lt_of_factor (hdisc ▸ hodd) hres hlt hg ha' ht' hroot' hgpos hpos hle hmod
  have hcoprime : Int.gcd t' a' = 1 := by
    have h := Int.gcd_ediv_gcd_ediv_gcd hgcd
    rw [hg, ha', ht', Int.mul_ediv_cancel_left _ hgpos.ne', Int.mul_ediv_cancel_left _ hgpos.ne'] at h
    rwa [Int.gcd_comm]
  have hroot0 : 0 ≤ root' := (mul_nonneg_iff_of_pos_left hgpos).1 (hroot' ▸ hroot)
  have hmod' : a' ∣ t' * f.b.natAbs - root' := by
    obtain ⟨z, hz⟩ := hmod
    refine ⟨z, mul_left_cancel₀ hgpos.ne' ?_⟩
    rw [ha', ht', hroot'] at hz
    linear_combination hz
  have hd' : a' ∣ d - f.b.natAbs * f.b.natAbs :=
    (Dvd.intro_left _ ha'.symm).trans (hdisc ▸ dvd_discriminant_sub f)
  rw [ha', ht', Int.mul_ediv_cancel_left _ hgpos.ne', Int.mul_ediv_cancel_left _ hgpos.ne',
    expand_eq (x := f.b.natAbs) hpos (by rintro rfl; exact ht (by rw [ht', mul_zero])) hcoprime
      (by positivity) hd' hroot0 hsmall hmod' rfl hgpos, mul_comm g]
  congr 2
  simp only [decide_eq_true_eq]
  split <;> omega

/-- **So it does for all the reduced forms of a squarefree discriminant.** -/
theorem exists_of?_expand (hf : f.Definite d) (hr : f.isReduced = true) (hd : Squarefree d) :
    ∃ c, of? f.a f.b = some c ∧ c.expand d = .ok (f.a, f.b) := by
  refine exists_of?_expand_of_restorable hf hr ?_ (.of_squarefree (hf.discriminant_eq.symm ▸ hd))
  rintro hfour
  rcases Int.isUnit_iff.1 (hd 2 hfour) with h | h <;> omega

/-- **A reduced form that cannot be restored loses its middle coefficient.** -/
theorem exists_of?_expand_of_not_restorable (hf : f.Definite d) (hr : f.isReduced = true)
    (h : ¬ f.Restorable) : ∃ c, of? f.a f.b = some c ∧ c.expand d = .ok (f.a, 0) := by
  have ha := hf.leading_pos
  obtain ⟨hone, hsquare⟩ : f.a ≠ 1 ∧ (Int.gcd f.a f.b : Int) * Int.gcd f.a f.b = f.a := by
    simpa only [Form.Restorable, Classical.not_imp, not_not] using h
  have hgcd : (Int.gcd f.a f.b.natAbs : Int) = Int.gcd f.a f.b := by
    simp only [Int.gcd, Int.natAbs_natCast]
  have hga : (Int.gcd f.a f.b : Int) ∣ f.a := Int.gcd_dvd_left _ _
  have hgb : (Int.gcd f.a f.b : Int) ∣ f.b.natAbs := Int.dvd_natAbs.2 (Int.gcd_dvd_right _ _)
  have hself : (Int.gcd f.a f.b : Int) ≠ f.a := by
    intro heq
    rw [heq] at hsquare
    exact hone (mul_left_cancel₀ ha.ne' (by rw [hsquare, mul_one]))
  -- so the middle coefficient is neither the leading one nor zero
  have hlt : (f.b.natAbs : Int) < f.a := by
    rcases eq_or_natAbs_lt hr with hab | hlt
    · rw [← hab, Int.gcd_self, Int.natAbs_of_nonneg ha.le] at hself
      exact absurd rfl hself
    · exact hlt
  have hb : 0 < (f.b.natAbs : Int) := by
    rcases Nat.eq_zero_or_pos f.b.natAbs with hzero | hpos
    · rw [Int.natAbs_eq_zero.1 hzero, Int.gcd_zero_right, Int.natAbs_of_nonneg ha.le] at hself
      exact absurd rfl hself
    · exact_mod_cast hpos
  obtain ⟨root, -, hle, ht, hmod, hpos⟩ := exists_root (by positivity) hlt
  rw [hgcd] at hpos
  have hroot := hpos hb hsquare.le
  generalize hT : -(partialGcd f.a f.b.natAbs (floorSqrt f.a.natAbs)).coLower = t at ht hmod
  have hg0 : 0 ≤ (Int.gcd f.a f.b : Int) := Int.natCast_nonneg _
  generalize (Int.gcd f.a f.b : Int) = g at *
  -- the root is a positive multiple of the common divisor, and no larger
  have hgroot : g ∣ root := dvd_root hga (hgb.mul_left t) hmod
  obtain rfl : root = g := by
    refine le_antisymm ?_ (Int.le_of_dvd hroot hgroot)
    exact (mul_self_le_mul_self_iff hroot.le hg0).2 (hle.trans hsquare.ge)
  have hcoprime := gcd_eq_one_of_root_mul_root hsquare hroot.ne' hgb hmod
  have hfactor : (Int.gcd f.a t : Int) = 1 := by exact_mod_cast hcoprime
  refine ⟨_, of?_eq hlt hT hfactor, ?_⟩
  have hdvd : f.a ∣ d - f.b.natAbs * f.b.natAbs := hf.discriminant_eq ▸ dvd_discriminant_sub f
  simp only [Int.ediv_one]
  exact expand_of_square_eq ha ht (by rwa [Int.gcd_comm]) hdvd hsquare hmod
    (Int.ediv_eq_zero_of_lt (by positivity) hlt) rfl

end Compressed

end VerifiableDelay
