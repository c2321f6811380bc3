import VerifiableDelay.Euclid.Partial
import VerifiableDelay.Proofs.Euclid.Descent
/-!
# Windows — steps on words

The words of a window stay between zero and `2 ^ 63`, and so do the entries
of its matrix: each is at most the word it was opened on, since the words it
has come to take the matrix back there and are positive. So no step wraps,
and the matrix is a descent of the words. **A step that is accepted is
certified** (`Tracks.certifies`), which is what makes it one of the integers
that the words are the leading digits of.
-/

namespace VerifiableDelay

namespace Window

variable {m : Descent} {u l : Int} {w : Window}

/-- A difference that is in range does not wrap. -/
theorem toInt_sub_mul_of_bounds {a b c : Int64}
    (hlow : -2 ^ (63 : Nat) ≤ a.toInt - b.toInt * c.toInt)
    (hhigh : a.toInt - b.toInt * c.toInt < 2 ^ (63 : Nat)) :
    (a - b * c).toInt = a.toInt - b.toInt * c.toInt := by
  rw [Int64.toInt_sub, Int64.toInt_mul, Int.sub_bmod_bmod]
  apply Int.bmod_eq_of_le <;> omega

theorem toInt_sub_of_bounds {a b : Int64} (hlow : -2 ^ (63 : Nat) ≤ a.toInt - b.toInt)
    (hhigh : a.toInt - b.toInt < 2 ^ (63 : Nat)) : (a - b).toInt = a.toInt - b.toInt := by
  rw [Int64.toInt_sub]
  apply Int.bmod_eq_of_le <;> omega

theorem toInt_neg_of_bounds {a : Int64} (hlow : -2 ^ (63 : Nat) < a.toInt) :
    (-a).toInt = -a.toInt := by
  have := Int64.toInt_lt a
  rw [Int64.toInt_neg]
  apply Int.bmod_eq_of_le <;> omega

/-- The leading bits of a number that are few enough are what the word
says. -/
theorem toInt_word {x : Int} {shift : Nat} (h : x.natAbs / 2 ^ shift < 2 ^ 63) :
    (word x shift).toInt = ((x.natAbs / 2 ^ shift : Nat) : Int) := by
  rw [word, Nat.shiftRight_eq_div_pow]
  exact Int64.toInt_ofNat_of_lt h

/-- The quotient of the words is that of what they say. -/
theorem toInt_quotient (hlower : 0 < w.lower.toInt) (hle : w.lower.toInt ≤ w.upper.toInt) :
    (w.upper / w.lower).toInt = w.upper.toInt / w.lower.toInt := by
  have hne : w.lower ≠ -1 := by
    intro heq
    rw [heq] at hlower
    exact absurd hlower (by decide)
  rw [Int64.toInt_div_of_ne_right _ _ hne, Int.tdiv_eq_ediv_of_nonneg (by omega)]

/-- And so is the remainder. -/
theorem toInt_next_lower (hlower : 0 < w.lower.toInt) (hle : w.lower.toInt ≤ w.upper.toInt) :
    w.next.lower.toInt = w.upper.toInt % w.lower.toInt := by
  have hquot := toInt_quotient hlower hle
  have hnonneg := Int.emod_nonneg w.upper.toInt hlower.ne'
  have hlt := Int.emod_lt_of_pos w.upper.toInt hlower
  have hword := Int64.toInt_lt w.lower
  rw [Int.emod_def, mul_comm, ← hquot] at hnonneg hlt ⊢
  rw [Window.next, toInt_sub_mul_of_bounds] <;> omega

/-- **The invariant of a window** opened on the words `u` and `l`: its
matrix is a descent that leads from these to the words it is at. The signs
of the matrix alternate with the steps. -/
structure Tracks (m : Descent) (u l : Int) (w : Window) : Prop where
  leads : m.Leads u l w.upper.toInt w.lower.toInt
  p_eq : w.p.toInt = m.sign * m.p
  q_eq : w.q.toInt = -(m.sign * m.q)
  r_eq : w.r.toInt = -(m.sign * m.r)
  s_eq : w.s.toInt = m.sign * m.s
  sign_eq : m.sign = if w.steps % 2 = 0 then 1 else -1
  lower_nonneg : 0 ≤ w.lower.toInt
  lower_le : w.lower.toInt ≤ w.upper.toInt

namespace Tracks

theorem lower_pos (h : w.Tracks m u l) (hne : w.lower ≠ 0) : 0 < w.lower.toInt := by
  have hne0 : w.lower.toInt ≠ 0 := fun h0 => hne (Int64.toInt_inj.1 h0)
  have := h.lower_nonneg
  omega

/-- One step of the words is one division more. -/
theorem next (h : w.Tracks m u l) (hlower : 0 < w.lower.toInt) (hu : u < 2 ^ 63)
    (hl : l < 2 ^ 63) :
    ∃ (κ : Int) (hκ : 0 ≤ κ), 1 ≤ κ ∧ w.next.Tracks (m.comp (.division κ hκ)) u l ∧
      w.next.lower.toInt < w.next.upper.toInt := by
  have hquot := toInt_quotient hlower h.lower_le
  have hrem := toInt_next_lower hlower h.lower_le
  have hnonneg : 0 ≤ w.next.lower.toInt := hrem ▸ Int.emod_nonneg _ hlower.ne'
  have hlt : w.next.lower.toInt < w.lower.toInt := hrem ▸ Int.emod_lt_of_pos _ hlower
  have hκ : 1 ≤ w.upper.toInt / w.lower.toInt :=
    Int.le_ediv_of_mul_le hlower (by linarith [h.lower_le])
  rw [Int.emod_def, mul_comm] at hrem
  generalize w.upper.toInt / w.lower.toInt = κ at hquot hrem hκ
  have hκ0 : 0 ≤ κ := by omega
  have hleads : (m.comp (.division κ hκ0)).Leads u l w.next.upper.toInt w.next.lower.toInt := by
    rw [hrem]
    exact h.leads.comp (Descent.leads_division hκ0 _ _)
  -- the words it has come to bound the matrix, so its entries do not wrap
  have hsu := hleads.s_le hlower hnonneg
  have hrl := hleads.r_le hlower hnonneg
  have hsigns := m.sign_eq
  have hr0 := (m.comp (.division κ hκ0)).r_nonneg
  have hs0 := (m.comp (.division κ hκ0)).s_nonneg
  simp only [Descent.comp_division_s, Descent.comp_division_r] at hsu hrl hr0 hs0
  have hrw : w.p.toInt - (w.upper / w.lower).toInt * w.r.toInt = m.sign * (m.r * κ + m.p) := by
    rw [h.p_eq, h.r_eq, hquot]
    ring
  have hsw : w.q.toInt - (w.upper / w.lower).toInt * w.s.toInt = -(m.sign * (m.s * κ + m.q)) := by
    rw [h.q_eq, h.s_eq, hquot]
    ring
  refine ⟨κ, hκ0, hκ, ⟨hleads, ?_, ?_, ?_, ?_, ?_, hnonneg, hlt.le⟩, hlt⟩
  · change w.r.toInt = _
    simp [h.r_eq]
  · change w.s.toInt = _
    simp [h.s_eq]
  · rw [Descent.comp_division_sign, Descent.comp_division_r, neg_mul, neg_neg, ← hrw]
    apply toInt_sub_mul_of_bounds <;> rw [hrw] <;> rcases hsigns with h1 | h1 <;> rw [h1] <;> omega
  · rw [Descent.comp_division_sign, Descent.comp_division_s, neg_mul, ← hsw]
    apply toInt_sub_mul_of_bounds <;> rw [hsw] <;> rcases hsigns with h1 | h1 <;> rw [h1] <;> omega
  · rw [Descent.comp_division_sign, h.sign_eq]
    change _ = if (w.steps + 1) % 2 = 0 then (1 : Int) else -1
    split_ifs <;> omega

/-- **A step that is accepted is certified.** Where the lower word has come
to nothing the first of the two tests fails; elsewhere no sum of cofactors
wraps. -/
theorem certifies (h : w.Tracks m u l) (hu : u < 2 ^ 63) (hl : l < 2 ^ 63) (hr : 0 < m.r)
    (hs : 0 < m.s) (hlt : w.lower.toInt < w.upper.toInt) (ha : w.accepts = true) :
    m.Certifies w.upper.toInt w.lower.toInt ∧ 0 < w.lower.toInt := by
  have hlow := h.lower_nonneg
  have hup := Int64.toInt_lt w.upper
  have hq := m.q_nonneg
  have hp := m.p_nonneg
  have hsu := h.leads.s_le (by omega) hlow
  have hrl := h.leads.r_le (by omega) hlow
  have hdiff : (w.upper - w.lower).toInt = w.upper.toInt - w.lower.toInt :=
    toInt_sub_of_bounds (by omega) (by omega)
  have hsign := h.sign_eq
  unfold accepts at ha
  simp only [Int64.lt_iff_toInt_lt, hdiff] at ha
  split_ifs at ha hsign with heven
  · have hneg : (-w.r).toInt = m.r := by
      rw [toInt_neg_of_bounds] <;> rw [h.r_eq, hsign] <;> omega
    obtain ⟨h1, h2⟩ : m.r ≤ w.lower.toInt ∧ (w.s - w.q).toInt ≤ w.upper.toInt - w.lower.toInt := by
      rw [hneg] at ha
      simpa using ha
    have hpos : 0 < w.lower.toInt := by omega
    have hsq : (w.s - w.q).toInt = m.s + m.q := by
      have := h.leads.s_add_q_le (by omega) hpos
      rw [toInt_sub_of_bounds] <;> rw [h.s_eq, h.q_eq, hsign] <;> omega
    exact ⟨⟨fun _ => ⟨h1, hsq ▸ h2⟩, fun h3 => by omega⟩, hpos⟩
  · have hneg : (-w.s).toInt = m.s := by
      rw [toInt_neg_of_bounds] <;> rw [h.s_eq, hsign] <;> omega
    obtain ⟨h1, h2⟩ : m.s ≤ w.lower.toInt ∧ (w.r - w.p).toInt ≤ w.upper.toInt - w.lower.toInt := by
      rw [hneg] at ha
      simpa using ha
    have hpos : 0 < w.lower.toInt := by omega
    have hrp : (w.r - w.p).toInt = m.r + m.p := by
      have := h.leads.r_add_p_le (by omega) hpos
      rw [toInt_sub_of_bounds] <;> rw [h.r_eq, h.p_eq, hsign] <;> omega
    exact ⟨⟨fun h3 => by omega, fun _ => ⟨h1, hrp ▸ h2⟩⟩, hpos⟩

end Tracks

/-- **What a window comes to.** Either no step is taken, or the steps are
certified and the last of them was taken above the bound. -/
theorem run_spec (bound : Int64) (h : w.Tracks m u l) (hu : u < 2 ^ 63) (hl : l < 2 ^ 63) :
    run bound w = w ∨ w.steps < (run bound w).steps ∧ ∃ n : Descent,
      (run bound w).Tracks n u l ∧ 0 < n.r ∧ 0 < n.s ∧
      n.Certifies (run bound w).upper.toInt (run bound w).lower.toInt ∧
      bound.toInt < (run bound w).upper.toInt := by
  induction w using run.induct bound generalizing m with
  | case1 w hcond haccepts ih =>
    have hlower : bound.toInt < w.lower.toInt := Int64.lt_iff_toInt_lt.1 hcond.2
    obtain ⟨κ, hκ, hκ1, htracks, hlt⟩ := h.next (h.lower_pos hcond.1) hu hl
    obtain ⟨hr, hs⟩ := m.comp_division_pos hκ hκ1
    have hcert := (htracks.certifies hu hl hr hs hlt haccepts).1
    rw [run, if_pos hcond, if_pos haccepts]
    right
    rcases ih htracks with heq | ⟨hsteps, n', hn'⟩
    · rw [heq]
      exact ⟨Nat.lt_succ_self _, _, htracks, hr, hs, hcert, hlower⟩
    · exact ⟨lt_trans (Nat.lt_succ_self _) hsteps, n', hn'⟩
  | case2 w hcond haccepts =>
    left
    rw [run, if_pos hcond, if_neg haccepts]
  | case3 w hcond =>
    left
    rw [run, if_neg hcond]

end Window

end VerifiableDelay
