import VerifiableDelay.Proofs.Euclid.Window
import Mathlib.Algebra.Order.Ring.Abs
/-!
# The partial remainder sequence

However its steps are grouped, the sequence is a descent from the two
integers it began with, and its cofactors are the entries of that matrix
with alternating signs. The lower remainder falls with every advance, so the
sequence comes down to its bound. **It does not come much further**
(`Remainders.Stage.s_mul_bound_le`): the last step was taken while the
remainder above was, up to the digits that were left over, more than the
bound.
-/

namespace VerifiableDelay

namespace Remainders

variable {a b bound : Int} {m : Descent} {x : Remainders}

/-- **The invariant of the sequence** of `a` and `b`. -/
structure Stage (a b bound : Int) (m : Descent) (x : Remainders) : Prop where
  leads : m.Leads a b x.upper x.lower
  coUpper_eq : x.coUpper = m.sign * m.q
  coLower_eq : x.coLower = -(m.sign * m.s)
  lower_nonneg : 0 ≤ x.lower
  lower_lt : x.lower < x.upper
  s_mul_bound_le : m.s * bound ≤ a

/-- The sequence before its first step. -/
theorem stage_start (hb : 0 ≤ b) (hba : b < a) (hbound : bound ≤ a) :
    (start a b).Stage a b bound .start where
  leads := Descent.leads_start a b
  coUpper_eq := by simp [start, Descent.start]
  coLower_eq := by simp [start, Descent.start]
  lower_nonneg := hb
  lower_lt := hba
  s_mul_bound_le := by simpa [Descent.start] using hbound

/-- The shift leaves room in a word for what is no more than a remainder. -/
theorem toInt_word_shift {y : Int} (hy : 0 ≤ y)
    (hyx : y.natAbs ≤ x.upper.natAbs ∨ y.natAbs ≤ x.lower.natAbs) :
    (Window.word y x.shift).toInt = y / 2 ^ x.shift ∧ y / 2 ^ x.shift < 2 ^ 63 := by
  have hlen : y.natAbs < 2 ^ (x.shift + 63) := by
    have hupper : bitLength x.upper.natAbs ≤ x.shift + 63 := by unfold shift; omega
    have hlower : bitLength x.lower.natAbs ≤ x.shift + 63 := by unfold shift; omega
    rcases hyx with h | h
    · exact h.trans_lt ((lt_two_pow_bitLength _).trans_le (Nat.pow_le_pow_right (by norm_num) hupper))
    · exact h.trans_lt ((lt_two_pow_bitLength _).trans_le (Nat.pow_le_pow_right (by norm_num) hlower))
  have hnat : y.natAbs / 2 ^ x.shift < 2 ^ 63 := by
    refine Nat.div_lt_of_lt_mul ?_
    rwa [← Nat.pow_add]
  have hcast : ((y.natAbs / 2 ^ x.shift : Nat) : Int) = y / 2 ^ x.shift := by
    obtain ⟨n, rfl⟩ := Int.eq_ofNat_of_zero_le hy
    simp
  refine ⟨by rw [Window.toInt_word hnat, hcast], ?_⟩
  rw [← hcast]
  exact_mod_cast hnat

namespace Stage

/-- The sequence after a further descent, whose last upper remainder stands
for the bound. -/
theorem comp {n : Descent} {y : Remainders} (h : x.Stage a b bound m)
    (hleads : n.Leads x.upper x.lower y.upper y.lower)
    (hupper : y.coUpper = n.sign * (n.p * x.coUpper - n.q * x.coLower))
    (hlower : y.coLower = n.sign * (n.s * x.coLower - n.r * x.coUpper))
    (hnonneg : 0 ≤ y.lower) (hlt : y.lower < y.upper) (hbound : (m.comp n).s * bound ≤ a) :
    y.Stage a b bound (m.comp n) where
  leads := h.leads.comp hleads
  coUpper_eq := by
    rw [hupper, h.coUpper_eq, h.coLower_eq]
    simp only [Descent.comp]
    ring
  coLower_eq := by
    rw [hlower, h.coUpper_eq, h.coLower_eq]
    simp only [Descent.comp]
    ring
  lower_nonneg := hnonneg
  lower_lt := hlt
  s_mul_bound_le := hbound

/-- What divides both remainders divides what the sequence began with. -/
theorem dvd {g : Int} (h : x.Stage a b bound m) (hupper : g ∣ x.upper) (hlower : g ∣ x.lower) :
    g ∣ a ∧ g ∣ b := by
  rw [h.leads.upper, h.leads.lower]
  exact ⟨dvd_add (hupper.mul_left _) (hlower.mul_left _),
    dvd_add (hupper.mul_left _) (hlower.mul_left _)⟩

/-- A division keeps the invariant and lowers the lower remainder, to zero
only where it goes into the upper one. -/
theorem divide (h : x.Stage a b bound m) (hlower : 0 < x.lower) (hbound : bound < x.lower) :
    ∃ n : Descent, x.divide.Stage a b bound n ∧ x.divide.lower < x.lower ∧
      (0 < x.divide.lower ∨ x.lower ∣ x.upper) := by
  have hdiv : x.upper.tdiv x.lower = x.upper / x.lower :=
    Int.tdiv_eq_ediv_of_nonneg (by linarith [h.lower_lt])
  have hmod : x.upper.tmod x.lower = x.upper - x.upper / x.lower * x.lower := by
    rw [Int.tmod_def, hdiv, mul_comm]
  have hq : 0 ≤ x.upper / x.lower := Int.ediv_nonneg (by linarith [h.lower_lt]) hlower.le
  have hrem := Int.emod_add_mul_ediv x.upper x.lower
  have hnonneg := Int.emod_nonneg x.upper hlower.ne'
  have hlt := Int.emod_lt_of_pos x.upper hlower
  have hlow : x.divide.lower = x.upper - x.upper / x.lower * x.lower := hmod
  have hleads := Descent.leads_division hq x.upper x.lower
  rw [← hlow] at hleads
  have hpos : 0 ≤ x.divide.lower := by rw [hlow]; linarith
  have hless : x.divide.lower < x.lower := by rw [hlow]; linarith
  have hzero : 0 < x.divide.lower ∨ x.lower ∣ x.upper := by
    rcases hpos.lt_or_eq with hpos | hzero
    · exact .inl hpos
    · exact .inr ⟨x.upper / x.lower, by linarith⟩
  refine ⟨_, h.comp hleads ?_ ?_ hpos hless ?_, hless, hzero⟩
  · simp [Remainders.divide, Descent.division]
  · simp only [Remainders.divide, Descent.division, hdiv]
    ring
  · -- the divisor, which is now above, was more than the bound
    have hup := (h.leads.comp hleads).upper
    have := mul_nonneg (m.comp (Descent.division _ hq)).q_nonneg hpos
    have := mul_le_mul_of_nonneg_left hbound.le (m.comp (Descent.division _ hq)).s_nonneg
    linarith

/-- The leading words of the remainders, at the common shift. -/
theorem words (h : x.Stage a b bound m) {y : Int} (hy : 0 ≤ y) (hyx : y ≤ x.upper) :
    (Window.word y x.shift).toInt = y / 2 ^ x.shift ∧ y / 2 ^ x.shift < 2 ^ 63 := by
  have := h.lower_nonneg
  have := h.lower_lt
  exact toInt_word_shift hy (by omega)

/-- The remainders a window's matrix leads to are in order already. -/
theorem apply_eq {n : Descent} {w : Window} {u l U L : Int} (hw : w.Tracks n u l)
    (hleads : n.Leads x.upper x.lower U L) (hL : 0 ≤ L) (hLU : L < U) :
    x.apply w = ⟨U, L, n.sign * (n.p * x.coUpper - n.q * x.coLower),
      n.sign * (n.s * x.coLower - n.r * x.coUpper)⟩ := by
  have hU : x.upper * w.p.toInt + x.lower * w.q.toInt = U := by
    rw [hw.p_eq, hw.q_eq, hleads.upper_eq]
    ring
  have hLow : x.lower * w.s.toInt + x.upper * w.r.toInt = L := by
    rw [hw.s_eq, hw.r_eq, hleads.lower_eq]
    ring
  rw [Remainders.apply]
  simp only [hU, hLow]
  rw [fixLower, if_neg (by simpa using hL), fixUpper, if_neg (by simp only; omega)]
  simp only [hw.p_eq, hw.q_eq, hw.r_eq, hw.s_eq, Remainders.mk.injEq, true_and]
  constructor <;> ring

/-- **A run of steps on words keeps the invariant** and lowers the lower
remainder, but not to zero. -/
theorem apply {n : Descent} {w : Window} (h : x.Stage a b bound m)
    (hw : w.Tracks n (x.upper / 2 ^ x.shift) (x.lower / 2 ^ x.shift)) (hr : 0 < n.r) (hs : 0 < n.s)
    (hc : n.Certifies w.upper.toInt w.lower.toInt)
    (hbound : bound / 2 ^ x.shift < w.upper.toInt) :
    ∃ n' : Descent, (x.apply w).Stage a b bound n' ∧ (x.apply w).lower < x.lower ∧
      0 < (x.apply w).lower := by
  have hN : (0 : Int) < 2 ^ x.shift := by positivity
  obtain ⟨U, L, hleads, hL, hLU, -⟩ := hw.leads.lift hc hs hr (Int.emod_nonneg x.upper hN.ne')
    (Int.emod_lt_of_pos x.upper hN) (Int.emod_nonneg x.lower hN.ne') (Int.emod_lt_of_pos x.lower hN)
  rw [Int.mul_ediv_add_emod, Int.mul_ediv_add_emod] at hleads
  have heq := apply_eq hw hleads hL.le hLU
  have hless : L < x.lower := by
    have := hleads.lower
    have := le_mul_of_one_le_left (show 0 ≤ U by omega) (show 1 ≤ n.r by omega)
    have := mul_nonneg n.p_nonneg hL.le
    omega
  rw [heq]
  refine ⟨m.comp n, h.comp hleads rfl rfl hL.le hLU ?_, hless, hL⟩
  -- on the words alone the matrix accounts for what the bound is compared with
  have hu : 2 ^ x.shift * (x.upper / 2 ^ x.shift) ≤ x.upper := Int.mul_ediv_self_le hN.ne'
  have hl : 2 ^ x.shift * (x.lower / 2 ^ x.shift) ≤ x.lower := Int.mul_ediv_self_le hN.ne'
  have hb : bound ≤ 2 ^ x.shift * w.upper.toInt := by
    have := Int.emod_add_mul_ediv bound (2 ^ x.shift)
    have := Int.emod_lt_of_pos bound hN
    have := mul_le_mul_of_nonneg_left (Int.add_one_le_of_lt hbound) hN.le
    linarith
  have hwords : (m.comp n).s * w.upper.toInt ≤
      m.s * (x.upper / 2 ^ x.shift) + m.q * (x.lower / 2 ^ x.shift) := by
    rw [hw.leads.upper, hw.leads.lower]
    have h1 : 0 ≤ (m.comp n).q * w.lower.toInt := mul_nonneg (m.comp n).q_nonneg hw.lower_nonneg
    simp only [Descent.comp] at h1 ⊢
    linarith
  calc (m.comp n).s * bound ≤ (m.comp n).s * (2 ^ x.shift * w.upper.toInt) :=
        mul_le_mul_of_nonneg_left hb (m.comp n).s_nonneg
    _ = 2 ^ x.shift * ((m.comp n).s * w.upper.toInt) := by ring
    _ ≤ 2 ^ x.shift * (m.s * (x.upper / 2 ^ x.shift) + m.q * (x.lower / 2 ^ x.shift)) :=
        mul_le_mul_of_nonneg_left hwords hN.le
    _ = m.s * (2 ^ x.shift * (x.upper / 2 ^ x.shift)) +
          m.q * (2 ^ x.shift * (x.lower / 2 ^ x.shift)) := by ring
    _ ≤ m.s * x.upper + m.q * x.lower :=
        add_le_add (mul_le_mul_of_nonneg_left hu m.s_nonneg)
          (mul_le_mul_of_nonneg_left hl m.q_nonneg)
    _ = a := h.leads.upper.symm

/-- A window opened on the leading words tracks them. -/
theorem opened (h : x.Stage a b bound m) :
    (Window.opened x.upper x.lower x.shift).Tracks .start (x.upper / 2 ^ x.shift)
      (x.lower / 2 ^ x.shift) := by
  have hupper : 0 ≤ x.upper := by linarith [h.lower_nonneg, h.lower_lt]
  have hu := (h.words hupper le_rfl).1
  have hl := (h.words h.lower_nonneg h.lower_lt.le).1
  refine ⟨?_, ?_, ?_, ?_, ?_, ?_, ?_, ?_⟩
  · change Descent.Leads _ _ _ (Window.word _ _).toInt (Window.word _ _).toInt
    rw [hu, hl]
    exact Descent.leads_start _ _
  · rfl
  · rfl
  · rfl
  · rfl
  · rfl
  · change 0 ≤ (Window.word _ _).toInt
    rw [hl]
    exact Int.ediv_nonneg h.lower_nonneg (by positivity)
  · change (Window.word _ _).toInt ≤ (Window.word _ _).toInt
    rw [hu, hl]
    exact Int.ediv_le_ediv (by positivity) h.lower_lt.le

/-- **Every advance keeps the invariant** and lowers the lower remainder, to
zero only where that goes into the upper one. -/
theorem advance (h : x.Stage a b bound m) (hb : 0 ≤ bound) (hlower : bound < x.lower) :
    ∃ n : Descent, (x.advance bound).Stage a b bound n ∧ (x.advance bound).lower < x.lower ∧
      (0 < (x.advance bound).lower ∨ x.lower ∣ x.upper) := by
  have hlu := h.lower_lt
  obtain ⟨hword, hlt⟩ := h.words hb (by omega)
  rw [Remainders.advance]
  rcases Window.run_spec (Window.word bound x.shift) h.opened
      (h.words (by omega) le_rfl).2 (h.words (by omega) hlu.le).2 with heq | ⟨hsteps, n, hn⟩
  · have hsteps : (Window.opened x.upper x.lower x.shift).steps = 0 := rfl
    rw [heq, if_pos hsteps]
    exact h.divide (by omega) hlower
  · rw [if_neg (by omega)]
    obtain ⟨htracks, hr, hs, hc, hup⟩ := hn
    obtain ⟨n', hn', hless, hpos⟩ := h.apply htracks hr hs hc (hword ▸ hup)
    exact ⟨n', hn', hless, .inl hpos⟩

/-- **The sequence ends at its bound**: an advance for each number the lower
remainder counts is enough. It does not end at zero, unless what it began
with has a common divisor beyond the bound. -/
theorem advanceMany (fuel : Nat) (h : x.Stage a b bound m) (hb : 0 ≤ bound)
    (hfuel : x.lower < fuel) :
    ∃ n : Descent, (advanceMany bound fuel x).Stage a b bound n ∧
      (Remainders.advanceMany bound fuel x).lower ≤ bound ∧
      (0 < x.lower → (∀ g, g ∣ a → g ∣ b → g ≤ bound) →
        0 < (Remainders.advanceMany bound fuel x).lower) := by
  induction fuel generalizing x m with
  | zero =>
    have := h.lower_nonneg
    omega
  | succ fuel ih =>
    rw [Remainders.advanceMany]
    split
    · rename_i hcond
      obtain ⟨n, hn, hless, hzero⟩ := h.advance hb hcond.2
      obtain ⟨n', hn', hle, hpos⟩ := ih hn (by omega)
      refine ⟨n', hn', hle, fun _ hcommon => hpos ?_ hcommon⟩
      rcases hzero with hzero | hdvd
      · exact hzero
      · obtain ⟨hga, hgb⟩ := h.dvd hdvd dvd_rfl
        exact absurd hcond.2 (not_lt.2 (hcommon _ hga hgb))
    · rename_i hcond
      refine ⟨m, h, ?_, fun hpos _ => hpos⟩
      by_contra hlt
      exact hcond ⟨by omega, by omega⟩

end Stage

end Remainders

/-- **What the partial sequence gives**: consecutive remainders, the lower
at most the bound, and the cofactors of the matrix that leads to them. The
lower is not zero where the greatest common divisor is within the bound. -/
theorem partialGcd_spec {a b bound : Int} (hb : 0 ≤ b) (hba : b < a) (hbound : 0 ≤ bound)
    (hle : bound ≤ a) :
    ∃ m : Descent, (partialGcd a b bound).Stage a b bound m ∧
      (partialGcd a b bound).lower ≤ bound ∧
      (0 < b → (Int.gcd a b : Int) ≤ bound → 0 < (partialGcd a b bound).lower) := by
  obtain ⟨m, hm, hlower, hpos⟩ := (Remainders.stage_start hb hba hle).advanceMany
    (a.natAbs + b.natAbs + 1) hbound (by simp only [Remainders.start]; omega)
  have hupper : ¬ (Remainders.advanceMany bound (a.natAbs + b.natAbs + 1)
      (Remainders.start a b)).upper < 0 := by
    have := hm.lower_nonneg
    have := hm.lower_lt
    omega
  rw [partialGcd, if_neg hupper]
  refine ⟨m, hm, hlower, fun hb0 hgcd => hpos hb0 fun g hga hgb => ?_⟩
  have hgcd0 : 0 < Int.gcd a b := Int.gcd_pos_of_ne_zero_right _ hb0.ne'
  exact (Int.le_of_dvd (by exact_mod_cast hgcd0) (Int.dvd_coe_gcd hga hgb)).trans hgcd

end VerifiableDelay
