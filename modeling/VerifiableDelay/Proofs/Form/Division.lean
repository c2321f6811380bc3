import VerifiableDelay.Proofs.Euclid.Division
import VerifiableDelay.Proofs.Form.Composition
/-!
# Composition, by a division that is given

Composition divides by leading coefficients, by their common factors and by a
cofactor of the partial sequence, and all but its remainders are meant to be
exact. Here its text stands with the divisions left open, as Euclid's
algorithms do. For definite forms no divisor is zero and nothing is left:
**composition by any `Division` is the composite** (`compositeWith_eq`),
whichever branch is taken and whatever the forms have in common.
-/

namespace VerifiableDelay

namespace Form

variable {M : Type → Type} [Monad M]

/-- The composite written out, by a given division. -/
def composeDirectWith (q : Division M) (a₁ a₂ b c k : Int) : M Form := do
  let t := a₂ * k
  return ⟨a₂ * a₁, 2 * t + b, ← q.exact ((b + t) * k + c) a₁⟩

/-- The method by partial remainders, by a given division. -/
def composePartialWith (q : Division M) (d : Discriminant) (a₁ a₂ b c k s m : Int) : M Form := do
  let x ← partialGcdWith q a₁ k d.bound
  let t := a₂ * x.lower
  let m₁ ← q.exact (m * x.coLower + t) a₁
  let m₂ ← q.exact (s * x.lower - c * x.coLower) a₁
  let lower := x.lower * m₁
  let upper := x.coLower * m₂
  let a := if x.coLower < 0 then lower - upper else upper - lower
  let middle ← q.exact (2 * (t - a * x.coUpper)) x.coLower
  let b' ← q.floorMod (middle - b) (2 * a)
  let outer ← q.exact (b' * b' - d.value) a
  return withPositiveLeading ⟨a, b', ← q.exact outer 4⟩

/-- Whichever of the two the leading coefficient asks for. -/
def composeFromWith (q : Division M) (d : Discriminant) (a₁ a₂ b c k s m : Int) : M Form :=
  if a₁ < d.bound then composeDirectWith q a₁ a₂ b c k
  else composePartialWith q d a₁ a₂ b c k s m

/-- The common factor of the leading coefficients and the cofactor of the
second, by a given division. -/
def commonFactorWith (q : Division M) (f g : Form) : M (Int × Int) := do
  let t ← q.floorMod g.a f.a
  if t = 0 then return (f.a, 0)
  else
    let e ← Bezout.ofWith q t f.a
    return (e.gcd, e.left)

/-- The composite of two forms in order, by a given division. -/
def composeOrderedWith (q : Division M) (d : Discriminant) (f g : Form) : M Form := do
  let s ← q.exact (f.b + g.b) 2
  let m ← q.exact (f.b - g.b) 2
  let (common, v) ← commonFactorWith q f g
  let k ← q.floorMod (m * v) f.a
  if common = 1 then composeFromWith q d f.a g.a g.b g.c k s m
  else
    let e ← Bezout.ofWith q s common
    let a₁ ← q.exact f.a e.gcd
    let a₂ ← q.exact g.a e.gcd
    let k ← q.floorMod (k * e.right - e.left * g.c) a₁
    composeFromWith q d a₁ a₂ g.b (g.c * e.gcd) k s m

/-- **The composite** of two forms, by a given division. -/
def compositeWith (q : Division M) (d : Discriminant) (f g : Form) : M Form :=
  if g.a < f.a then composeOrderedWith q d g f else composeOrderedWith q d f g

variable [LawfulMonad M] {d : Discriminant} {f g : Form} {s m e a₁ a₂ k : Int}

namespace Concordant

/-- The composite written out makes one division, and it is exact. -/
theorem composeDirectWith_eq (h : Concordant f g s m e a₁ a₂ k) (hf : f.Definite d.value)
    (q : Division M) :
    composeDirectWith q a₁ a₂ g.b (g.c * e) k = pure (composeDirect a₁ a₂ g.b (g.c * e) k) := by
  rw [composeDirectWith, q.exact_eq (h.left_pos hf).ne' h.dvd_direct, pure_bind]
  rfl

/-- **The method by partial remainders divides exactly**: twice by the
leading coefficient, then by a cofactor that is not zero, and what is left to
the discriminant by the new leading coefficient and by four. -/
theorem composePartialWith_eq (h : Concordant f g s m e a₁ a₂ k) (hf : f.Definite d.value)
    (hg : g.Definite d.value) (hk : 0 ≤ k) (hka : k < a₁) (hbound : (d.bound : Int) ≤ a₁)
    (q : Division M) :
    composePartialWith q d a₁ a₂ g.b (g.c * e) k s m =
      pure (composePartial d a₁ a₂ g.b (g.c * e) k s m) := by
  have ha₁ := (h.left_pos hf).ne'
  obtain ⟨n, hx, -, -⟩ := partialGcd_spec hk hka (Int.natCast_nonneg d.bound) hbound
  obtain ⟨hm₁, hm₂⟩ := h.dvd_partial hx
  obtain ⟨h', ε, r, -, hdef, hε, ha, hb, hco, hmiddle⟩ := h.exists_partial hf hg hk hka hbound
  have hne := hdef.sign_mul_a_ne_zero hε
  have hlast := hdef.sub_discriminant_eq hε hb
  rw [composePartialWith, partialGcdWith_eq, pure_bind, composePartial]
  generalize partialGcd a₁ k d.bound = x at *
  simp only
  rw [q.exact_eq ha₁ hm₁, pure_bind, q.exact_eq ha₁ hm₂, pure_bind, ha, q.exact_eq hco hmiddle,
    pure_bind, q.floorMod_eq (mul_ne_zero two_ne_zero hne), pure_bind,
    q.exact_eq hne (Dvd.intro _ hlast.symm), pure_bind, q.exact_ediv four_ne_zero, pure_bind]
  rw [hlast, Int.mul_tdiv_cancel_left _ hne]
  exact Dvd.intro _ rfl

/-- **Both methods divide exactly** the numbers that concordant forms are
composed by. -/
theorem composeFromWith_eq (h : Concordant f g s m e a₁ a₂ k) (hf : f.Definite d.value)
    (hg : g.Definite d.value) (hk : 0 ≤ k) (hka : k < a₁) (q : Division M) :
    composeFromWith q d a₁ a₂ g.b (g.c * e) k s m =
      pure (if a₁ < d.bound then composeDirect a₁ a₂ g.b (g.c * e) k
        else composePartial d a₁ a₂ g.b (g.c * e) k s m) := by
  rw [composeFromWith]
  split
  · exact h.composeDirectWith_eq hf q
  · exact h.composePartialWith_eq hf hg hk hka (by omega) q

end Concordant

/-- The common factor is sought by a remainder modulo a leading coefficient,
which is not zero. -/
theorem commonFactorWith_eq (hf : f.Definite d.value) (q : Division M) (g : Form) :
    commonFactorWith q f g = pure (if g.a.fmod f.a = 0 then (f.a, 0)
      else ((Bezout.of (g.a.fmod f.a) f.a).gcd, (Bezout.of (g.a.fmod f.a) f.a).left)) := by
  rw [commonFactorWith, q.floorMod_eq hf.leading_pos.ne', pure_bind]
  split
  · rfl
  · rw [Bezout.ofWith_eq, pure_bind]

/-- **In order the composite is the one by plain division.** -/
theorem composeOrderedWith_eq (hf : f.Definite d.value) (hg : g.Definite d.value)
    (q : Division M) : composeOrderedWith q d f g = pure (composeOrdered d f g) := by
  obtain ⟨hs, hm⟩ := exists_halves hf hg
  obtain ⟨common, v, hcommon, hcf, hcg, hv⟩ := exists_common (g := g) hf.leading_pos
  rw [composeOrderedWith, q.exact_ediv two_ne_zero ⟨_, hs⟩, pure_bind,
    q.exact_ediv two_ne_zero ⟨_, hm⟩, pure_bind, commonFactorWith_eq hf, pure_bind, hcommon,
    composeOrdered]
  simp only
  rw [hcommon, q.floorMod_eq hf.leading_pos.ne', pure_bind]
  simp only
  by_cases h1 : common = 1
  · subst h1
    have h := (concordant_of_coprime hf hg hv).composeFromWith_eq hf hg
      (Int.fmod_nonneg_of_pos _ hf.leading_pos) (Int.fmod_lt_of_pos _ hf.leading_pos) q
    rwa [mul_one] at h
  · have hconc := concordant_of_common hf hg hcf hcg hv
    have hpos := hconc.left_pos hf
    obtain ⟨he, -, hef, heg⟩ := gcd_half_sum_spec (s := (f.b + g.b) / 2) hcf hcg hf.leading_pos
    rw [if_neg h1, if_neg h1, Bezout.ofWith_eq, pure_bind, q.exact_eq he.ne' hef, pure_bind,
      q.exact_eq he.ne' heg, pure_bind, q.floorMod_eq hpos.ne', pure_bind]
    exact hconc.composeFromWith_eq hf hg (Int.fmod_nonneg_of_pos _ hpos)
      (Int.fmod_lt_of_pos _ hpos) q

/-- **Composition never asks for what is not defined**: by any division it is
the composite. -/
theorem compositeWith_eq (hf : f.Definite d.value) (hg : g.Definite d.value) (q : Division M) :
    compositeWith q d f g = pure (composite d f g) := by
  rw [compositeWith, composite]
  split
  · exact composeOrderedWith_eq hg hf q
  · exact composeOrderedWith_eq hf hg q

end Form

end VerifiableDelay
