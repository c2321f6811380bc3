import VerifiableDelay.Prime.Lucas
import VerifiableDelay.Proofs.Prime.Residue
import Mathlib.Data.ZMod.Basic
import Mathlib.Tactic.LinearCombination
/-!
# Lucas sequences

The sequences `U` and `V` of the parameters `1` and `q` are given by their
recurrence, over any commutative ring. Doubling and increment are laws of them
(`U_two_mul`, `V_two_mul`, `two_mul_U_succ`, `two_mul_V_succ`), so modulo an odd
number **the ladder computes them** (`at_term`), whatever the bits of the index
are, and **the strong test decides what it is to decide** (`passesWith_iff`).
-/

namespace VerifiableDelay

namespace Lucas

/-! ## The recurrence -/

section Recurrence

variable {R S : Type*} [CommRing R] [CommRing S] (q : R)

/-- The sequence that begins with zero and one. -/
def U (q : R) : Nat → R
  | 0 => 0
  | 1 => 1
  | k + 2 => U q (k + 1) - q * U q k

/-- The sequence that begins with two and one. -/
def V (q : R) : Nat → R
  | 0 => 2
  | 1 => 1
  | k + 2 => V q (k + 1) - q * V q k

theorem U_add_two (k : Nat) : U q (k + 2) = U q (k + 1) - q * U q k := rfl

theorem V_add_two (k : Nat) : V q (k + 2) = V q (k + 1) - q * V q k := rfl

/-- The second sequence in terms of the first. -/
theorem V_eq (k : Nat) : V q k = 2 * U q (k + 1) - U q k := by
  induction k using Nat.twoStepInduction with
  | zero => simp [U, V]
  | one =>
    simp only [U, V]
    ring
  | more k ih ih' =>
    rw [V_add_two, ih, ih', U_add_two q (k + 1), U_add_two]
    ring

/-- The addition law. -/
theorem U_add_succ (m k : Nat) : U q (m + k + 1) = U q (m + 1) * U q (k + 1) - q * U q m * U q k := by
  induction k using Nat.twoStepInduction with
  | zero => simp [U]
  | one =>
    simp only [U]
    ring
  | more k ih ih' =>
    rw [show m + (k + 2) + 1 = m + k + 1 + 2 by ring, U_add_two, show m + k + 1 + 1 = m + (k + 1) + 1
      by ring, ih, ih', U_add_two q (k + 1), U_add_two q k]
    ring

/-- The norm of consecutive terms is a power of the parameter. -/
theorem norm_eq (k : Nat) : U q (k + 1) ^ 2 - U q (k + 1) * U q k + q * U q k ^ 2 = q ^ k := by
  induction k with
  | zero => simp [U]
  | succ k ih =>
    rw [U_add_two, pow_succ q k, ← ih]
    ring

/-! Doubling and increment. -/

theorem U_two_mul (k : Nat) : U q (2 * k) = U q k * V q k := by
  cases k with
  | zero => simp [U]
  | succ k =>
    rw [show 2 * (k + 1) = (k + 1) + k + 1 by ring, U_add_succ, V_eq, U_add_two]
    ring

theorem V_two_mul (k : Nat) : V q (2 * k) = V q k * V q k - q ^ k - q ^ k := by
  rw [V_eq, U_two_mul, V_eq, two_mul k, U_add_succ, ← norm_eq]
  ring

theorem two_mul_U_succ (k : Nat) : 2 * U q (k + 1) = U q k + V q k := by
  rw [V_eq]
  ring

theorem two_mul_V_succ (k : Nat) : 2 * V q (k + 1) = (1 - 4 * q) * U q k + V q k := by
  rw [V_eq, V_eq, U_add_two]
  ring

/-! The sequences in another ring, and by the roots of their polynomial. -/

theorem map_U (f : R →+* S) (k : Nat) : f (U q k) = U (f q) k := by
  induction k using Nat.twoStepInduction with
  | zero => simp [U]
  | one => simp [U]
  | more k ih ih' => rw [U_add_two, U_add_two, map_sub, map_mul, ih, ih']

theorem map_V (f : R →+* S) (k : Nat) : f (V q k) = V (f q) k := by
  induction k using Nat.twoStepInduction with
  | zero => exact map_ofNat f 2
  | one => simp [V]
  | more k ih ih' => rw [V_add_two, V_add_two, map_sub, map_mul, ih, ih']

/-- A residue of the first sequence over the integers is that of the sequence of
the residues, -/
theorem U_modEq_iff {n : Nat} {q x : Int} (k : Nat) :
    U q k ≡ x [ZMOD n] ↔ U (q : ZMod n) k = x := by
  rw [← ZMod.intCast_eq_intCast_iff]
  exact Eq.congr_left (map_U q (Int.castRingHom (ZMod n)) k)

/-- and so for the second. -/
theorem V_modEq_iff {n : Nat} {q x : Int} (k : Nat) :
    V q k ≡ x [ZMOD n] ↔ V (q : ZMod n) k = x := by
  rw [← ZMod.intCast_eq_intCast_iff]
  exact Eq.congr_left (map_V q (Int.castRingHom (ZMod n)) k)

variable {q} {α β : R}

theorem V_eq_add_pow (hsum : α + β = 1) (hprod : α * β = q) (k : Nat) :
    V q k = α ^ k + β ^ k := by
  induction k using Nat.twoStepInduction with
  | zero => norm_num [V]
  | one => simp [V, hsum]
  | more k ih ih' =>
    rw [V_add_two, ih, ih', ← hprod]
    linear_combination (-(α ^ (k + 1)) - β ^ (k + 1)) * hsum

theorem sub_mul_U_eq (hsum : α + β = 1) (hprod : α * β = q) (k : Nat) :
    (α - β) * U q k = α ^ k - β ^ k := by
  induction k using Nat.twoStepInduction with
  | zero => simp [U]
  | one => simp [U]
  | more k ih ih' =>
    rw [U_add_two, mul_sub, mul_left_comm, ih, ih', ← hprod]
    linear_combination (-(α ^ (k + 1)) + β ^ (k + 1)) * hsum

end Recurrence

/-! ## The ladder -/

section Ladder

variable {n k count : Nat} {d q x : Int} {t : Term}

/-- Modulo an odd number halves are unique. -/
theorem eq_of_two_mul_eq (hodd : Odd n) {x y : ZMod n} (h : 2 * x = 2 * y) : x = y := by
  obtain ⟨c, rfl⟩ := hodd
  have hself : ((2 * c + 1 : Nat) : ZMod (2 * c + 1)) = 0 := ZMod.natCast_self _
  push_cast at hself
  linear_combination (c + 1 : ZMod (2 * c + 1)) * h - (x - y) * hself

theorem two_mul_half (hodd : Odd n) (x : Int) : 2 * (half n x : ZMod n) = x := by
  have hn : (n : Int) % 2 = 1 := by exact_mod_cast Nat.odd_iff.1 hodd
  unfold half
  split
  · have : 2 * (x / 2) = x := by omega
    exact_mod_cast congrArg (Int.cast (R := ZMod n)) this
  · have : 2 * ((x + n) / 2) = x + n := by omega
    have hcast := congrArg (Int.cast (R := ZMod n)) this
    push_cast at hcast
    rwa [ZMod.natCast_self, add_zero] at hcast

theorem half_mem (h0 : 0 ≤ x) (hlt : x < n) : 0 ≤ half n x ∧ half n x < n := by
  unfold half
  split <;> omega

/-- **The term is that of the index**: residues of the members of the sequences,
and of the power of the parameter, in their range. -/
structure Term.At (n : Nat) (q : Int) (k : Nat) (t : Term) : Prop where
  u : (t.u : ZMod n) = U (q : ZMod n) k
  v : (t.v : ZMod n) = V (q : ZMod n) k
  q : (t.q : ZMod n) = (q : ZMod n) ^ k
  u_mem : 0 ≤ t.u ∧ t.u < n
  v_mem : 0 ≤ t.v ∧ t.v < n

theorem emod_mem (hn : 0 < n) (x : Int) : 0 ≤ x % n ∧ x % n < n :=
  have hpos : (0 : Int) < n := by exact_mod_cast hn
  ⟨Int.emod_nonneg x hpos.ne', Int.emod_lt_of_pos x hpos⟩

theorem Term.At.double (hn : 0 < n) (h : t.At n q k) : (t.double n).At n q (2 * k) where
  u := by
    rw [Term.double, ZMod.intCast_mod, Int.cast_mul, h.u, h.v, U_two_mul]
  v := by
    rw [Term.double, ZMod.intCast_mod, Int.cast_sub, Int.cast_sub, Int.cast_mul, h.v, h.q,
      V_two_mul]
  q := by
    rw [Term.double, ZMod.intCast_mod, Int.cast_mul, h.q, ← pow_add, two_mul]
  u_mem := emod_mem hn _
  v_mem := emod_mem hn _

theorem Term.At.succ (hodd : Odd n) (hd : d = 1 - 4 * q) (h : t.At n q k) :
    (t.succ n d q).At n q (k + 1) where
  u := by
    refine eq_of_two_mul_eq hodd ?_
    rw [Term.succ, two_mul_half hodd, ZMod.intCast_mod, Int.cast_add, h.u, h.v, two_mul_U_succ]
  v := by
    refine eq_of_two_mul_eq hodd ?_
    rw [Term.succ, two_mul_half hodd, ZMod.intCast_mod, two_mul_V_succ, hd]
    push_cast
    rw [h.u, h.v]
  q := by
    rw [Term.succ, ZMod.intCast_mod, Int.cast_mul, h.q, pow_succ]
  u_mem := half_mem (emod_mem hodd.pos _).1 (emod_mem hodd.pos _).2
  v_mem := half_mem (emod_mem hodd.pos _).1 (emod_mem hodd.pos _).2

/-- **The ladder computes the term of the index**, along the bits of any. -/
theorem at_term (hodd : Odd n) (hn : 1 < n) (hd : d = 1 - 4 * q) (hk : 1 ≤ k) :
    (term n d q k).At n q k := by
  induction k using Nat.strong_induction_on with
  | h k ih =>
    rw [term]
    split
    · obtain rfl : k = 1 := by omega
      have hone : (0 : Int) ≤ 1 ∧ (1 : Int) < n := ⟨by decide, by exact_mod_cast hn⟩
      exact ⟨by simp [U], by simp [V], by rw [ZMod.intCast_mod, pow_one], hone, hone⟩
    · have hdouble := (ih (k / 2) (by omega) (by omega)).double hodd.pos
      simp only
      split
      · rwa [show 2 * (k / 2) = k by omega] at hdouble
      · have hsucc := hdouble.succ hodd hd
        rwa [show 2 * (k / 2) + 1 = k by omega] at hsucc

/-- Numbers in the range are told apart by their residues. -/
theorem intCast_inj_of_mem {y : Int} (hx : 0 ≤ x ∧ x < n) (hy : 0 ≤ y ∧ y < n) :
    (x : ZMod n) = y ↔ x = y := by
  rw [ZMod.intCast_eq_intCast_iff', Int.emod_eq_of_lt hx.1 hx.2, Int.emod_eq_of_lt hy.1 hy.2]

/-- A residue in the range is zero where the member of the sequence is. -/
theorem beq_zero_iff {y : ZMod n} (hn : 0 < n) (hx : 0 ≤ x ∧ x < n) (h : (x : ZMod n) = y) :
    (x == 0) = true ↔ y = 0 := by
  have hzero := intCast_inj_of_mem hx ⟨le_refl (0 : Int), by exact_mod_cast hn⟩
  rw [Int.cast_zero, h] at hzero
  rw [beq_iff_eq, hzero]

/-- The doublings end at the last index, -/
theorem at_doublings (count : Nat) (hn : 0 < n) (h : t.At n q k) (vanished : Bool) :
    (doublings n count vanished t).2.At n q (k * 2 ^ count) := by
  induction count generalizing k vanished t with
  | zero => simpa [doublings] using h
  | succ count ih =>
    have := ih (h.double hn) (vanished || t.v == 0)
    rwa [show 2 * k * 2 ^ count = k * 2 ^ (count + 1) by ring] at this

/-- and note a zero of the second sequence before it. -/
theorem doublings_vanished (hn : 0 < n) (h : t.At n q k) (vanished : Bool) :
    (doublings n count vanished t).1 = true ↔
      vanished = true ∨ ∃ r < count, V (q : ZMod n) (k * 2 ^ r) = 0 := by
  induction count generalizing k vanished t with
  | zero => simp [doublings]
  | succ count ih =>
    have hindex : ∀ r, 2 * k * 2 ^ r = k * 2 ^ (r + 1) := fun r => by ring
    rw [doublings, ih (h.double hn), Bool.or_eq_true, beq_zero_iff hn h.v_mem h.v, or_assoc,
      Nat.exists_lt_succ_left]
    simp only [hindex, pow_zero, mul_one]

/-- **The strong test decides the strong condition**, on any odd number and with
any parameter that leaves one modulo four. -/
theorem passesWith_iff {s m : Nat} (hodd : Odd n) (hn : 1 < n) (hd : d % 4 = 1)
    (hq : q = (1 - d) / 4) (hsplit : splitTwos (n + 1) = (s, m)) :
    passesWith n d = true ↔
      (U (q : ZMod n) m = 0 ∨ ∃ r < s, V (q : ZMod n) (m * 2 ^ r) = 0) ∧
      V (q : ZMod n) (n + 1) = 2 * q := by
  obtain ⟨hprod, hm⟩ := splitTwos_spec (n := n + 1) (by omega)
  rw [hsplit] at hprod hm
  rw [passesWith, ← hq, hsplit]
  simp only at hprod hm ⊢
  have hpos := hodd.pos
  have hfirst := at_term hodd hn (by omega : d = 1 - 4 * q) hm.pos
  have hs : 0 < s := by
    refine Nat.pos_of_ne_zero ?_
    rintro rfl
    rw [pow_zero, one_mul] at hprod
    exact Nat.not_even_iff_odd.2 hm (hprod ▸ hodd.add_one)
  have hlast := at_doublings s hpos hfirst
    ((term n d q m).u == 0 || (term n d q m).v == 0)
  rw [mul_comm, ← hprod] at hlast
  have htwice : ((q + q : Int) : ZMod n) = 2 * q := by
    push_cast
    ring
  rw [Bool.and_eq_true, doublings_vanished hpos hfirst, Bool.or_eq_true,
    beq_zero_iff hpos hfirst.u_mem hfirst.u, beq_zero_iff hpos hfirst.v_mem hfirst.v, beq_iff_eq,
    ← intCast_inj_of_mem hlast.v_mem (emod_mem hpos _), hlast.v, ZMod.intCast_mod, htwice, or_assoc, or_iff_right_of_imp (a := V (q : ZMod n) m = 0)]
  intro hzero
  exact ⟨0, hs, by rwa [pow_zero, mul_one]⟩

end Ladder

end Lucas

end VerifiableDelay
