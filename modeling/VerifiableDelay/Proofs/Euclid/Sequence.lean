import VerifiableDelay.Proofs.Euclid.Partial
/-!
# The remainders one by one

A run of steps on words is so many exact divisions, each of remainders that
the words are the leading digits of (`Remainders.apply_next`). So whatever the
words are, the partial sequence goes through the remainders of Euclid's
algorithm in their order, and leaves none out. `Divisions` counts the divisions
from one state to another, and says of each that the bound had not been passed
when it was made, by more than a remainder. **The sequence ends, at two
consecutive remainders, with cofactors that fit them**
(`partialGcd_is_euclidean`).
-/

namespace VerifiableDelay

/-- **The remainders of Euclid's algorithm** on `a` and `b`, which are the
first two. -/
def remainder (a b : Int) : Nat → Int
  | 0 => a
  | 1 => b
  | k + 2 => remainder a b k % remainder a b (k + 1)

namespace Remainders

variable {a b bound : Int} {k n : Nat} {x y : Remainders}

/-! ## Exact divisions -/

/-- Remainders in their order, as they are from the first division on. -/
structure Ordered (x : Remainders) : Prop where
  lower_nonneg : 0 ≤ x.lower
  lower_lt : x.lower < x.upper

theorem divide_lower (h : 0 ≤ x.upper) : x.divide.lower = x.upper % x.lower :=
  Int.tmod_eq_emod_of_nonneg h

theorem ordered_divide (hupper : 0 ≤ x.upper) (hlower : 0 < x.lower) : x.divide.Ordered := by
  refine ⟨?_, ?_⟩
  · rw [divide_lower hupper]
    exact Int.emod_nonneg _ hlower.ne'
  · rw [divide_lower hupper]
    exact Int.emod_lt_of_pos _ hlower

namespace Ordered

theorem upper_nonneg (h : x.Ordered) : 0 ≤ x.upper := h.lower_nonneg.trans h.lower_lt.le

/-! The sequence might have begun with them, so a window opened on them tracks
them. -/

theorem words (h : x.Ordered) {z : Int} (hz : 0 ≤ z) (hzx : z ≤ x.upper) :
    (Window.word z x.shift).toInt = z / 2 ^ x.shift ∧ z / 2 ^ x.shift < 2 ^ 63 :=
  (stage_start h.lower_nonneg h.lower_lt le_rfl).words hz hzx

theorem opened (h : x.Ordered) :
    (Window.opened x.upper x.lower x.shift).Tracks .start (x.upper / 2 ^ x.shift)
      (x.lower / 2 ^ x.shift) :=
  (stage_start h.lower_nonneg h.lower_lt le_rfl).opened

end Ordered

/-- So many exact divisions lead from one state to another, and none of them
began beyond the bound: its upper remainder was above that. -/
inductive Divisions (bound : Int) : Nat → Remainders → Remainders → Prop
  /-- None. -/
  | none (x : Remainders) : Divisions bound 0 x x
  /-- One more. -/
  | divide {k : Nat} {x y : Remainders} :
      Divisions bound k x y → 0 < y.lower → bound < y.upper → Divisions bound (k + 1) x y.divide

namespace Divisions

theorem trans {z : Remainders} (h : Divisions bound k x y) (h' : Divisions bound n y z) :
    Divisions bound (k + n) x z := by
  induction h' with
  | none _ => exact h
  | divide _ hlower hbound ih => exact .divide (ih h) hlower hbound

theorem ordered (h : Divisions bound k x y) (hx : x.Ordered) : y.Ordered := by
  induction h with
  | none _ => exact hx
  | divide _ hlower _ ih => exact ordered_divide (ih hx).upper_nonneg hlower

/-- Each of them lowers the lower remainder. -/
theorem lower_add_le (h : Divisions bound k x y) (hx : x.Ordered) : y.lower + k ≤ x.lower := by
  induction h with
  | none _ => simp
  | divide hdivs hlower _ ih =>
    have hlt := (ordered_divide (hdivs.ordered hx).upper_nonneg hlower).lower_lt
    have hle := ih hx
    push_cast
    change _ < Remainders.lower _ at hlt
    omega

/-- And none of them raises the upper one. -/
theorem upper_le (h : Divisions bound k x y) (hx : x.Ordered) : y.upper ≤ x.upper := by
  induction h with
  | none _ => exact le_rfl
  | divide hdivs _ _ ih => exact (hdivs.ordered hx).lower_lt.le.trans (ih hx)

/-- **They go through the remainders** in their order. -/
theorem remainder_eq (h : Divisions bound k (start a b) y) (hx : (start a b).Ordered) :
    y.upper = remainder a b k ∧ y.lower = remainder a b (k + 1) ∧
      ∀ j < k, 0 < remainder a b (j + 1) := by
  generalize hstart : start a b = x at h hx
  induction h with
  | none _ =>
    subst hstart
    exact ⟨rfl, rfl, fun j hj => absurd hj (Nat.not_lt_zero j)⟩
  | divide hdivs hlower _ ih =>
    obtain ⟨hupper, hlow, hpos⟩ := ih hstart hx
    refine ⟨hlow, ?_, fun j hj => ?_⟩
    · rw [divide_lower (hdivs.ordered hx).upper_nonneg, hupper, hlow]
      rfl
    · rcases Nat.lt_succ_iff_lt_or_eq.1 hj with hlt | rfl
      · exact hpos j hlt
      · exact hlow ▸ hlower

end Divisions

/-! ## Steps on words -/

section Words

variable {m : Descent} {u l : Int} {w : Window}

/-- **A step on words is a division**, where the steps so far and this one
lead to remainders in their order. -/
theorem apply_next {κ U L : Int} (hκ : 0 ≤ κ) (hκ1 : 1 ≤ κ) (hw : w.Tracks m u l)
    (hnext : w.next.Tracks (m.comp (.division κ hκ)) u l)
    (hleads : (m.comp (.division κ hκ)).Leads x.upper x.lower U L) (hL : 0 < L) (hLU : L < U) :
    (x.apply w).lower = U ∧ (x.apply w.next).upper = U ∧
      x.apply w.next = (x.apply w).divide := by
  -- what the steps so far lead to is what the last division gave these of
  have hbefore : m.Leads x.upper x.lower (κ * U + L) U := by
    obtain ⟨hupper, hlower⟩ := hleads
    simp only [Descent.comp_division_s, Descent.comp_division_q, Descent.comp_division_r,
      Descent.comp_division_p] at hupper hlower
    exact ⟨by linarith, by linarith⟩
  have hlt : U < κ * U + L := by
    have := le_mul_of_one_le_left (show 0 ≤ U by omega) hκ1
    omega
  have hquotient : (κ * U + L).tdiv U = κ := by
    rw [Int.tdiv_eq_ediv_of_nonneg (by omega), Int.add_comm, Int.add_mul_ediv_right _ _ (by omega),
      Int.ediv_eq_zero_of_lt hL.le hLU, zero_add]
  have hremainder : (κ * U + L).tmod U = L := by
    rw [Int.tmod_def, hquotient]
    ring
  rw [Stage.apply_eq hw hbefore (by omega) hlt, Stage.apply_eq hnext hleads hL.le hLU]
  refine ⟨rfl, rfl, ?_⟩
  simp only [Remainders.divide, hquotient, hremainder, Remainders.mk.injEq, true_and,
    Descent.comp_division_s, Descent.comp_division_q, Descent.comp_division_r,
    Descent.comp_division_p, Descent.comp_division_sign]
  constructor <;> ring

/-- **The steps a window takes are divisions**, and the last of them too began
above the bound. What carries the induction is that the lower word, filled up
with zeros, is below the upper remainder: while the word is above that of the
bound, the remainder is above the bound. -/
theorem divisions_run (word : Int64) (hword : 0 ≤ word.toInt)
    (hbound : bound < 2 ^ x.shift * (word.toInt + 1))
    (hu : x.upper / 2 ^ x.shift < 2 ^ 63) (hl : x.lower / 2 ^ x.shift < 2 ^ 63)
    (hw : w.Tracks m (x.upper / 2 ^ x.shift) (x.lower / 2 ^ x.shift))
    (hdivs : Divisions bound w.steps x (x.apply w))
    (hnear : 2 ^ x.shift * w.lower.toInt < (x.apply w).upper) :
    Divisions bound (w.run word).steps x (x.apply (w.run word)) := by
  induction w using Window.run.induct word generalizing m with
  | case1 w hcond haccepts ih =>
    have hlower : word.toInt < w.lower.toInt := Int64.lt_iff_toInt_lt.1 hcond.2
    obtain ⟨κ, hκ, hκ1, htracks, hlt⟩ := hw.next (by omega) hu hl
    obtain ⟨hr, hs⟩ := m.comp_division_pos hκ hκ1
    have hcert := (htracks.certifies hu hl hr hs hlt haccepts).1
    have hN : (0 : Int) < 2 ^ x.shift := by positivity
    obtain ⟨U, L, hleads, hL, hLU, hU⟩ := htracks.leads.lift hcert hs hr
      (Int.emod_nonneg x.upper hN.ne') (Int.emod_lt_of_pos x.upper hN)
      (Int.emod_nonneg x.lower hN.ne') (Int.emod_lt_of_pos x.lower hN)
    rw [Int.mul_ediv_add_emod, Int.mul_ediv_add_emod] at hleads
    obtain ⟨hlow, hup, hdivide⟩ := apply_next hκ hκ1 hw htracks hleads hL hLU
    have habove : bound < (x.apply w).upper := by
      have := mul_le_mul_of_nonneg_left (Int.add_one_le_of_lt hlower) hN.le
      omega
    rw [Window.run, if_pos hcond, if_pos haccepts]
    refine ih htracks ?_ (hup ▸ hU)
    rw [hdivide]
    exact .divide hdivs (by omega) habove
  | case2 w hcond haccepts =>
    rwa [Window.run, if_pos hcond, if_neg haccepts]
  | case3 w hcond =>
    rwa [Window.run, if_neg hcond]

/-- The steps a state's own window takes. -/
def leap (bound : Int) (x : Remainders) : Window :=
  (Window.opened x.upper x.lower x.shift).run (Window.word bound x.shift)

namespace Ordered

/-- A window that takes no step changes nothing. -/
theorem apply_opened (h : x.Ordered) :
    x.apply (Window.opened x.upper x.lower x.shift) = x := by
  rw [Stage.apply_eq h.opened (Descent.leads_start _ _) h.lower_nonneg h.lower_lt]
  simp [Descent.start]

theorem divisions_leap (h : x.Ordered) (hb : 0 ≤ bound) (hbound : bound ≤ x.upper) :
    Divisions bound (x.leap bound).steps x (x.apply (x.leap bound)) := by
  have hN : (0 : Int) < 2 ^ x.shift := by positivity
  obtain ⟨hword, -⟩ := h.words hb hbound
  obtain ⟨hlower, hl⟩ := h.words h.lower_nonneg h.lower_lt.le
  have hopened : Divisions bound (Window.opened x.upper x.lower x.shift).steps x
      (x.apply (Window.opened x.upper x.lower x.shift)) := by
    rw [h.apply_opened]
    exact .none x
  refine divisions_run _ (hword ▸ Int.ediv_nonneg hb hN.le) ?_ (h.words h.upper_nonneg le_rfl).2
    hl h.opened hopened ?_
  · have := Int.emod_add_mul_ediv bound (2 ^ x.shift)
    have := Int.emod_lt_of_pos bound hN
    rw [hword, mul_add, mul_one]
    omega
  · rw [h.apply_opened]
    change 2 ^ x.shift * (Window.word x.lower x.shift).toInt < x.upper
    rw [hlower]
    exact (Int.mul_ediv_self_le hN.ne').trans_lt h.lower_lt

/-- **An advance makes a division or more.** -/
theorem advance (h : x.Ordered) (hb : 0 ≤ bound) (hlower : bound < x.lower) :
    ∃ k, Divisions bound (k + 1) x (x.advance bound) := by
  have hlt := h.lower_lt
  have hleap := h.divisions_leap hb (by omega)
  rw [Remainders.advance]
  change ∃ k, Divisions bound (k + 1) x
    (if (x.leap bound).steps = 0 then x.divide else x.apply (x.leap bound))
  split
  · exact ⟨0, .divide (.none x) (by omega) (by omega)⟩
  · rename_i hsteps
    obtain ⟨k, hk⟩ := Nat.exists_eq_succ_of_ne_zero hsteps
    rw [hk] at hleap
    exact ⟨k, hleap⟩

/-- **The advances come to divisions**, until the lower remainder is at most
the bound. -/
theorem advanceMany (fuel : Nat) (h : x.Ordered) (hb : 0 ≤ bound) (hfuel : x.lower < fuel) :
    ∃ k, Divisions bound k x (advanceMany bound fuel x) ∧
      (Remainders.advanceMany bound fuel x).lower ≤ bound := by
  induction fuel generalizing x with
  | zero =>
    have := h.lower_nonneg
    omega
  | succ fuel ih =>
    rw [Remainders.advanceMany]
    split
    · rename_i hcond
      obtain ⟨k, hk⟩ := h.advance hb hcond.2
      have hless := hk.lower_add_le h
      obtain ⟨n, hn, hle⟩ := ih (hk.ordered h) (by omega)
      exact ⟨_, hk.trans hn, hle⟩
    · refine ⟨0, .none x, ?_⟩
      have := h.lower_nonneg
      omega

end Ordered

end Words

/-! ## Remainders out of order

The first number may be the smaller one. Its division by the other only makes
them change places, and a window that is opened on them begins by just that: from
there on it is the window on them in their order, with the columns of its matrix
in the places of each other and one step more to its account. -/

/-- The window with its two columns in the places of each other, one step on. -/
def flip (w : Window) : Window :=
  { w with p := w.q, q := w.p, r := w.s, s := w.r, steps := w.steps + 1 }

theorem accepts_flip (w : Window) : (flip w).accepts = w.accepts := by
  have hsteps : (flip w).steps = w.steps + 1 := rfl
  unfold Window.accepts
  rw [hsteps]
  by_cases h : w.steps % 2 = 0
  · rw [if_neg (by omega), if_pos h]
    rfl
  · rw [if_pos (by omega), if_neg h]
    rfl

theorem run_flip (word : Int64) (w : Window) : (flip w).run word = flip (w.run word) := by
  have hstep : ∀ w, (flip w).next = flip w.next := fun _ => rfl
  have hlower : ∀ w, (flip w).lower = w.lower := fun _ => rfl
  induction w using Window.run.induct word with
  | case1 w hcond haccepts ih =>
    rw [Window.run, hlower, if_pos hcond, hstep, accepts_flip, if_pos haccepts, ih]
    conv_rhs => rw [Window.run, if_pos hcond, if_pos haccepts]
  | case2 w hcond haccepts =>
    rw [Window.run, hlower, if_pos hcond, hstep, accepts_flip, if_neg haccepts]
    conv_rhs => rw [Window.run, if_pos hcond, if_neg haccepts]
  | case3 w hcond =>
    rw [Window.run, hlower, if_neg hcond]
    conv_rhs => rw [Window.run, if_neg hcond]

/-- The division of a number by a larger one. -/
theorem divide_of_lt (hupper : 0 ≤ x.upper) (hlt : x.upper < x.lower) :
    x.divide = ⟨x.lower, x.upper, x.coLower, x.coUpper⟩ := by
  simp [divide, Int.tdiv_eq_zero_of_lt hupper hlt, Int.tmod_eq_of_lt hupper hlt]

theorem apply_flip (hupper : 0 ≤ x.upper) (hlt : x.upper < x.lower) (w : Window) :
    x.apply (flip w) = x.divide.apply w := by
  rw [divide_of_lt hupper hlt]
  simp only [apply, flip]
  congr 3 <;> ring

/-- The first step on words out of order makes them change places. -/
theorem next_opened {shift : Nat} (hupper : 0 ≤ (Window.word a shift).toInt)
    (hlt : (Window.word a shift).toInt < (Window.word b shift).toInt) :
    (Window.opened a b shift).next = flip (Window.opened b a shift) := by
  have hne : Window.word b shift ≠ -1 := by
    intro heq
    rw [heq] at hlt
    exact absurd (hupper.trans_lt hlt) (by decide)
  have hquotient : Window.word a shift / Window.word b shift = 0 := by
    apply Int64.toInt_inj.1
    rw [Int64.toInt_div_of_ne_right _ _ hne, Int.tdiv_eq_zero_of_lt hupper hlt]
    rfl
  simp [Window.next, Window.opened, flip, hquotient]

/-- A first step on equal words is not accepted. -/
theorem not_accepts_next_opened {shift : Nat} (hpos : 0 < (Window.word a shift).toInt)
    (heq : (Window.word a shift).toInt = (Window.word b shift).toInt) :
    ¬ (Window.opened a b shift).next.accepts = true := by
  intro haccepts
  have hu := Int64.toInt_lt (Window.word a shift)
  have hl := Int64.toInt_lt (Window.word b shift)
  have hlower : 0 < (Window.opened a b shift).lower.toInt := heq ▸ hpos
  have htracks : (Window.opened a b shift).Tracks .start (Window.word a shift).toInt
      (Window.word b shift).toInt :=
    ⟨Descent.leads_start _ _, rfl, rfl, rfl, rfl, rfl, hlower.le, heq.ge⟩
  obtain ⟨κ, hκ, hκ1, hnext, hlt⟩ := htracks.next hlower hu hl
  obtain ⟨hr, hs⟩ := Descent.start.comp_division_pos hκ hκ1
  -- an accepted step leaves a remainder, and equal words leave none
  have hrem := (hnext.certifies hu hl hr hs hlt haccepts).2
  rw [Window.toInt_next_lower hlower heq.ge] at hrem
  change 0 < (Window.word a shift).toInt % (Window.word b shift).toInt at hrem
  rw [heq, Int.emod_self] at hrem
  exact lt_irrefl _ hrem

/-- A window on remainders out of order takes no step, or the one that has them
change places and then those of the window on them in order. -/
theorem leap_of_le (hupper : 0 ≤ x.upper) (hle : x.upper ≤ x.lower) (hlower : 0 < x.lower) :
    (x.leap bound).steps = 0 ∨
      x.upper < x.lower ∧ x.leap bound = flip (x.divide.leap bound) := by
  obtain ⟨hu, -⟩ := toInt_word_shift (x := x) hupper (.inl le_rfl)
  obtain ⟨hl, -⟩ := toInt_word_shift (x := x) hlower.le (.inr le_rfl)
  have hN : (0 : Int) < 2 ^ x.shift := by positivity
  have hnonneg : 0 ≤ (Window.word x.upper x.shift).toInt := hu ▸ Int.ediv_nonneg hupper hN.le
  have hwords : (Window.word x.upper x.shift).toInt ≤ (Window.word x.lower x.shift).toInt := by
    rw [hu, hl]
    exact Int.ediv_le_ediv hN hle
  rw [leap, Window.run]
  split
  · rename_i hcond
    have hne : (Window.word x.lower x.shift).toInt ≠ 0 := fun h =>
      hcond.1 (Int64.toInt_inj.1 h)
    split
    · rename_i haccepts
      have hlt : (Window.word x.upper x.shift).toInt < (Window.word x.lower x.shift).toInt := by
        refine hwords.lt_of_ne fun heq => ?_
        exact not_accepts_next_opened (by omega) heq haccepts
      have hless : x.upper < x.lower := by
        refine hle.lt_of_ne fun heq => ?_
        rw [heq] at hlt
        exact lt_irrefl _ hlt
      refine .inr ⟨hless, ?_⟩
      have hshift : x.shift = x.divide.shift := by
        rw [divide_of_lt hupper hless]
        simp only [shift, max_comm]
      rw [next_opened hnonneg hlt, run_flip, leap, ← hshift, divide_of_lt hupper hless]
    · exact .inl rfl
  · exact .inl rfl

/-- **An advance puts remainders in order.** -/
theorem ordered_advance (hupper : 0 ≤ x.upper) (hle : x.upper ≤ x.lower) (hb : 0 ≤ bound)
    (hlower : bound < x.lower) :
    (x.advance bound).Ordered ∧ (x.advance bound).lower ≤ x.upper := by
  have hordered := ordered_divide hupper (by omega : 0 < x.lower)
  have hdivide : x.divide.lower ≤ x.upper := by
    rw [divide_lower hupper]
    rcases hle.lt_or_eq with hlt | heq
    · exact (Int.emod_eq_of_lt hupper hlt).le
    · rw [heq, Int.emod_self]
      exact hlower.le.trans' hb
  rw [Remainders.advance]
  change (if (x.leap bound).steps = 0 then x.divide else x.apply (x.leap bound)).Ordered ∧
    (if (x.leap bound).steps = 0 then x.divide else x.apply (x.leap bound)).lower ≤ x.upper
  split
  · exact ⟨hordered, hdivide⟩
  · rename_i hsteps
    obtain ⟨hless, hleap⟩ := (leap_of_le hupper hle (by omega)).resolve_left hsteps
    have hbound : bound ≤ x.divide.upper := hlower.le
    have hdivs := hordered.divisions_leap hb hbound
    rw [hleap, apply_flip hupper hless]
    have := hdivs.lower_add_le hordered
    exact ⟨hdivs.ordered hordered, by omega⟩

/-! ## The loop without a count -/

/-- The loop entered with one state ends with another, after so many advances. -/
inductive Ends (bound : Int) : Nat → Remainders → Remainders → Prop
  /-- A lower remainder that is zero or at most the bound ends it. -/
  | done {x : Remainders} : ¬ (x.lower ≠ 0 ∧ bound < x.lower) → Ends bound 0 x x
  /-- From any other it advances. -/
  | advance {n : Nat} {x y : Remainders} :
      x.lower ≠ 0 ∧ bound < x.lower → Ends bound n (x.advance bound) y → Ends bound (n + 1) x y

/-- The loop that is counted down ends as the one that is not, where it has come
down to the bound. -/
theorem exists_ends (fuel : Nat) (h : (advanceMany bound fuel x).lower ≤ bound) :
    ∃ n, Ends bound n x (advanceMany bound fuel x) := by
  induction fuel generalizing x with
  | zero => exact ⟨0, .done fun hcond => absurd hcond.2 (not_lt.2 h)⟩
  | succ fuel ih =>
    rw [advanceMany] at h ⊢
    split at h
    · rename_i hcond
      rw [if_pos hcond]
      obtain ⟨n, hn⟩ := ih h
      exact ⟨n + 1, .advance hcond hn⟩
    · rename_i hcond
      rw [if_neg hcond]
      exact ⟨0, .done hcond⟩

/-- **The loop ends** for any two numbers, in order or not. -/
theorem advanceMany_start_lower_le (ha : 0 ≤ a) (hb : 0 ≤ b) (hbound : 0 ≤ bound) :
    (advanceMany bound (a.natAbs + b.natAbs + 1) (start a b)).lower ≤ bound ∧
      0 ≤ (advanceMany bound (a.natAbs + b.natAbs + 1) (start a b)).upper := by
  rcases lt_or_ge b a with hlt | hge
  · have hordered : (start a b).Ordered := ⟨hb, hlt⟩
    obtain ⟨k, hk, hle⟩ := hordered.advanceMany (a.natAbs + b.natAbs + 1) hbound
      (by simp only [start]; omega)
    exact ⟨hle, (hk.ordered hordered).upper_nonneg⟩
  · rw [advanceMany]
    split
    · rename_i hcond
      obtain ⟨hordered, hless⟩ := ordered_advance (x := start a b) ha hge hbound hcond.2
      have hpos : 0 < b := by
        have := hcond.2
        simp only [start] at this
        omega
      obtain ⟨k, hk, hle⟩ := hordered.advanceMany (a.natAbs + b.natAbs) hbound
        (by simp only [start] at hless ⊢; omega)
      exact ⟨hle, (hk.ordered hordered).upper_nonneg⟩
    · rename_i hcond
      simp only [start, ne_eq, not_and, not_lt] at hcond ⊢
      exact ⟨by by_cases h : b = 0 <;> [omega; exact hcond h], ha⟩

end Remainders

/-- What is promised of the state the partial sequence of `a` and `b` stops in. -/
structure Remainders.Halfway (a b bound : Int) (x : Remainders) : Prop where
  /-- Its remainders are two of Euclid's algorithm, one after the other. -/
  consecutive : ∃ k, x.upper = remainder a b k ∧ x.lower = remainder a b (k + 1) ∧
    ∀ j < k, 0 < remainder a b (j + 1)
  lower_nonneg : 0 ≤ x.lower
  lower_lt : x.lower < x.upper
  lower_le : x.lower ≤ bound
  dvd_lower : a ∣ x.lower + x.coLower * b
  dvd_upper : a ∣ x.upper + x.coUpper * b
  coLower_ne_zero : x.coLower ≠ 0
  signs : x.coLower * x.coUpper ≤ 0
  area_eq : |x.coLower| * x.upper + |x.coUpper| * x.lower = a
  short : |x.coLower| * bound ≤ a

/-- The cofactors are entries of the matrix, up to signs that alternate. -/
theorem Remainders.Stage.halfway {a b bound : Int} {m : Descent} {x : Remainders} {k : Nat}
    (h : x.Stage a b bound m) (hba : b < a) (hlower : x.lower ≤ bound)
    (hk : x.upper = remainder a b k ∧ x.lower = remainder a b (k + 1) ∧
      ∀ j < k, 0 < remainder a b (j + 1)) : x.Halfway a b bound := by
  have hs := h.leads.s_pos hba.le h.lower_nonneg h.lower_lt
  have hq := m.q_nonneg
  have habsLower : |x.coLower| = m.s := by
    rw [h.coLower_eq]
    rcases m.sign_eq with h1 | h1 <;> simp [h1, abs_of_pos hs]
  have habsUpper : |x.coUpper| = m.q := by
    rw [h.coUpper_eq]
    rcases m.sign_eq with h1 | h1 <;> simp [h1, abs_of_nonneg hq]
  refine ⟨⟨k, hk⟩, h.lower_nonneg, h.lower_lt, hlower, ?_, ?_, ?_, ?_, ?_, ?_⟩
  · rw [h.coLower_eq, h.leads.lower_eq]
    exact ⟨-(m.sign * m.r), by ring⟩
  · rw [h.coUpper_eq, h.leads.upper_eq]
    exact ⟨m.sign * m.p, by ring⟩
  · rw [← abs_pos, habsLower]
    exact hs
  · rw [h.coLower_eq, h.coUpper_eq, show -(m.sign * m.s) * (m.sign * m.q) =
      -(m.sign * m.sign * (m.s * m.q)) by ring, m.sign_mul_sign, one_mul]
    exact neg_nonpos.2 (mul_nonneg hs.le hq)
  · rw [habsLower, habsUpper]
    exact h.leads.upper.symm
  · rw [habsLower]
    exact h.s_mul_bound_le

/-- **The partial sequence is Euclid's algorithm, stopped.** For any two
nonnegative numbers and any nonnegative bound its loop ends, in whatever order
the numbers are. If the first is the larger and the bound is not beyond it, what
it ends with are two consecutive remainders of Euclid's algorithm, in order, of
which the lower is at most the bound; with the cofactors of the second number in
them, of which that of the lower is not zero, that are of opposite signs, make
up the first number with the remainders, and are short enough for the bound. -/
theorem partialGcd_is_euclidean {a b bound : Int} (ha : 0 ≤ a) (hb : 0 ≤ b)
    (hbound : 0 ≤ bound) :
    (∃ n, Remainders.Ends bound n (.start a b) (partialGcd a b bound)) ∧
      (b < a → bound ≤ a → (partialGcd a b bound).Halfway a b bound) := by
  obtain ⟨hlower, hupper⟩ := Remainders.advanceMany_start_lower_le ha hb hbound
  have heq : partialGcd a b bound =
      Remainders.advanceMany bound (a.natAbs + b.natAbs + 1) (.start a b) := by
    rw [partialGcd, if_neg (not_lt.2 hupper)]
  refine ⟨heq ▸ Remainders.exists_ends _ hlower, fun hba hle => ?_⟩
  have hordered : (Remainders.start a b).Ordered := ⟨hb, hba⟩
  obtain ⟨m, hm, hlow, -⟩ := partialGcd_spec hb hba hbound hle
  obtain ⟨k, hk, -⟩ := hordered.advanceMany (a.natAbs + b.natAbs + 1) hbound
    (by simp only [Remainders.start]; omega)
  rw [← heq] at hk
  exact hm.halfway hba hlow (hk.remainder_eq hordered)

/-- Two numbers of more than a word, in either order. -/
theorem partialGcd_is_euclidean_seventy_bits :
    (∃ n, Remainders.Ends 1000000000 n (.start 1180591620717411315769 590295811136483429489)
      ⟨1169507729, 254677369, -456888960844, 909983162877⟩) ∧
    Remainders.Halfway 1180591620717411315769 590295811136483429489 1000000000
      ⟨1169507729, 254677369, -456888960844, 909983162877⟩ ∧
    ∃ n, Remainders.Ends 1000000000 n (.start 590295811136483429489 1180591620717411315769)
      ⟨1169507729, 254677369, 228444480723, -454991582038⟩ := by
  have hinOrder : partialGcd 1180591620717411315769 590295811136483429489 1000000000 =
      ⟨1169507729, 254677369, -456888960844, 909983162877⟩ := by decide +kernel
  have houtOfOrder : partialGcd 590295811136483429489 1180591620717411315769 1000000000 =
      ⟨1169507729, 254677369, 228444480723, -454991582038⟩ := by decide +kernel
  have hbound : (0 : Int) ≤ 1000000000 := by decide
  obtain ⟨hends, hhalfway⟩ := partialGcd_is_euclidean (a := 1180591620717411315769)
    (b := 590295811136483429489) (by decide) (by decide) hbound
  obtain ⟨hends', -⟩ := partialGcd_is_euclidean (a := 590295811136483429489)
    (b := 1180591620717411315769) (by decide) (by decide) hbound
  rw [hinOrder] at hends hhalfway
  rw [houtOfOrder] at hends'
  exact ⟨hends, hhalfway (by decide) (by decide), hends'⟩

end VerifiableDelay
