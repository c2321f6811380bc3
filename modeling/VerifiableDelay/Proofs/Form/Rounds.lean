import VerifiableDelay.Proofs.Form.Reduction
/-!
# The rounds of reduction

The loop of reduction has no counter: it swaps the outer coefficients and
shifts the middle one, in a round, for as long as they are not in order.
`Rounds` says of two forms that the loop takes one to the other, whatever its
length. A round that is not the last but one halves the leading coefficient
(`ordered_turn`), so **reduction makes no more rounds than that can be halved**
and gives the reduced form (`reduction_ends`).
-/

namespace VerifiableDelay

namespace Form

variable {D : Int} {f g : Form} {n : Nat}

/-- **A round of the loop**: the outer coefficients change places, and the
middle one is shifted below the new first. -/
def turn (f : Form) : Form :=
  let s := (f.c + f.b).fdiv (2 * f.c)
  ⟨f.c, 2 * f.c * s - f.b, f.c * s * s - f.b * s + f.a⟩

/-- The loop entered with one form ends with another, after so many rounds. -/
inductive Rounds : Nat → Form → Form → Prop
  /-- Coefficients in order end the loop. -/
  | done {f : Form} : f.Ordered → Rounds 0 f f
  /-- Any others are given to one more round. -/
  | round {n : Nat} {f g : Form} : ¬ f.Ordered → Rounds n f.turn g → Rounds (n + 1) f g

/-- A round is a swap and a shift. -/
theorem turn_eq_shift (f : Form) : f.turn = f.swap.shift ((f.c + f.b).fdiv (2 * f.c)) := by
  simp only [turn, swap, shift, Form.mk.injEq, true_and]
  constructor <;> ring

/-- For a positive new first coefficient the shift is the one that normalizes,
also where it is none. -/
theorem turn_eq (hc : 0 < f.c) : f.turn = f.swap.normalize := by
  rw [turn_eq_shift, normalize]
  split
  · rename_i h
    simp only [swap] at h
    have hzero : (f.c + f.b).fdiv (2 * f.c) = 0 := by
      rw [Int.fdiv_eq_ediv_of_nonneg _ (by omega)]
      exact Int.ediv_eq_zero_of_lt (by omega) (by omega)
    rw [hzero, shift_zero]
  · simp only [swap, sub_neg_eq_add]

/-- A round keeps to the class. -/
theorem equivalent_turn (f : Form) : f.Equivalent f.turn := by
  rw [turn_eq_shift]
  exact (equivalent_swap f).trans (equivalent_shift _ _)

theorem normal_turn (hc : 0 < f.c) : f.turn.Normal := turn_eq hc ▸ normal_normalize hc

/-- **A round that does not halve the leading coefficient is the last**: the
shift is by one at most, and leaves behind no less than is in front. -/
theorem ordered_turn (hn : f.Normal) (ho : ¬ f.Ordered) (hlt : f.a < 2 * f.c) :
    f.turn.Ordered := by
  obtain ⟨hlow, hhigh⟩ := hn
  have hturn : ∀ s, (f.c + f.b).fdiv (2 * f.c) = s →
      f.turn = ⟨f.c, 2 * f.c * s - f.b, f.c * s * s - f.b * s + f.a⟩ := by
    rintro s rfl
    rfl
  have hfloor : (f.c + f.b).fdiv (2 * f.c) = (f.c + f.b) / (2 * f.c) :=
    Int.fdiv_eq_ediv_of_nonneg _ (by omega)
  have hrem := Int.emod_add_mul_ediv (f.c + f.b) (2 * f.c)
  have hnonneg := Int.emod_nonneg (f.c + f.b) (b := 2 * f.c) (by omega)
  have hmod := Int.emod_lt_of_pos (f.c + f.b) (b := 2 * f.c) (by omega)
  have hs : -1 ≤ (f.c + f.b) / (2 * f.c) := Int.le_ediv_of_mul_le (by omega) (by omega)
  have hs' : (f.c + f.b) / (2 * f.c) < 2 := Int.ediv_lt_of_lt_mul (by omega) (by omega)
  generalize (f.c + f.b) / (2 * f.c) = s at *
  simp only [Ordered] at ho
  obtain rfl | rfl | rfl : s = -1 ∨ s = 0 ∨ s = 1 := by omega
  all_goals
    rw [hturn _ hfloor]
    simp only [Ordered]
    omega

/-- **The rounds are few**: the leading coefficient can be halved as often. -/
theorem Rounds.two_pow_le (h : Rounds n f g) (hD : D < 0) (hf : f.Definite D) (hn : f.Normal) :
    2 ^ n ≤ f.a := by
  induction h with
  | done _ =>
    have := hf.leading_pos
    omega
  | @round n f g ho hrest ih =>
    have hc := hf.c_pos hD
    have hle : 2 ^ n ≤ f.c := ih (hf.of_equivalent hD (equivalent_turn f)) (normal_turn hc)
    rw [pow_succ]
    rcases lt_or_ge f.a (2 * f.c) with hlt | hge
    · cases hrest with
      | done _ =>
        obtain ⟨hlow, hhigh⟩ := hn
        simp only [Ordered] at ho
        omega
      | round ho' _ => exact absurd (ordered_turn hn ho hlt) ho'
    · omega

/-- The loop that is counted down ends as the one that is not, where it ends
in order. -/
theorem exists_rounds (hD : D < 0) (fuel : Nat) (hf : f.Definite D)
    (ho : (f.settle fuel).Ordered) : ∃ n, Rounds n f (f.settle fuel) := by
  induction fuel generalizing f with
  | zero => exact ⟨0, .done ho⟩
  | succ fuel ih =>
    rw [settle] at ho ⊢
    split at ho
    · rename_i hordered
      rw [if_pos hordered]
      exact ⟨0, .done hordered⟩
    · rename_i hordered
      rw [if_neg hordered]
      rw [← turn_eq (hf.c_pos hD)] at ho ⊢
      obtain ⟨n, hrounds⟩ := ih (hf.of_equivalent hD (equivalent_turn f)) ho
      exact ⟨n + 1, .round hordered hrounds⟩

/-- **Reduction ends, with what it should.** For any form with a positive
leading coefficient and a negative discriminant the loop, entered with the
form normalized, ends, after no more rounds than the leading coefficient can
be halved; and normalized once more what it ends with is the reduced form. That
is reduced, has the discriminant, is the form after a substitution of
determinant one, and stands still under reduction. Normalizing alone gives such
a form too, with the same leading coefficient and the middle one between minus
that, left out, and that. -/
theorem reduction_ends (ha : 0 < f.a) (hD : f.discriminant < 0) :
    (∃ n g, Rounds n f.normalize g ∧ 2 ^ n ≤ f.a ∧ g.normalize = f.reduced) ∧
    (f.reduced.isReduced = true ∧ f.reduced.discriminant = f.discriminant ∧
      f.Equivalent f.reduced ∧ f.reduced.reduced = f.reduced) ∧
    f.Equivalent f.normalize ∧ f.normalize.a = f.a ∧ -f.a < f.normalize.b ∧
      f.normalize.b ≤ f.a := by
  have hf : f.Definite f.discriminant := ⟨ha, rfl⟩
  have hred := hf.isReduced_reduced hD
  have hn := normal_normalize ha
  have hnormalized := hf.of_equivalent hD (equivalent_normalize f)
  obtain ⟨hnormal, hordered⟩ := (isReduced_iff_normal (hf.reduced hD).leading_pos).1 hred
  obtain ⟨n, hrounds⟩ := exists_rounds hD _ hnormalized hordered
  have hfew := hrounds.two_pow_le hD hnormalized hn
  rw [normalize_a] at hfew
  refine ⟨⟨n, f.reduced, hrounds, hfew, normalize_of_normal hnormal⟩,
    ⟨hred, discriminant_reduced f, equivalent_reduced f, hf.reduced_reduced hD⟩,
    equivalent_normalize f, normalize_a f, ?_⟩
  rwa [Normal, normalize_a] at hn

/-- A form of discriminant `-15` that is normalized, and then takes as many
rounds as it may: the first makes the outer coefficients equal, the second
does no more than turn the sign of the middle one. -/
theorem reduction_ends_15 :
    (0 < (5 : Int) ∧ discriminant ⟨5, 15, 12⟩ = -15) ∧
    (∃ n g, Rounds n (normalize ⟨5, 15, 12⟩) g ∧ 2 ^ n ≤ (5 : Int) ∧ g.normalize = ⟨2, 1, 2⟩) ∧
    turn (normalize ⟨5, 15, 12⟩) = ⟨2, -1, 2⟩ ∧
    Rounds 2 (normalize ⟨5, 15, 12⟩) ⟨2, 1, 2⟩ := by
  have hreduced : reduced ⟨5, 15, 12⟩ = ⟨2, 1, 2⟩ := by decide
  have hends := (reduction_ends (f := ⟨5, 15, 12⟩) (by decide) (by decide)).1
  rw [hreduced] at hends
  exact ⟨by decide, hends, by decide, .round (by decide) (.round (by decide) (.done (by decide)))⟩

end Form

end VerifiableDelay
