import VerifiableDelay.Proofs.Euclid.Sequence
/-!
# Words that never wrap

An iteration on words is followed here in integers (`Window.Exact`), which have
no bound. Where none of the values it works out is beyond a word, the words and
the integers go on alike (`Window.exact_next`). None ever is: the divisions made
so far and the one under way account, with words that are not negative, for the
words that the window was opened on, so each product and each new entry of the
matrix is at most one of these (`Window.Tracks.fits`). That holds of a step that
is then refused as well, but for the second comparison: where the new lower word
is zero the first refuses already. **So a run on words is the run on integers**
(`word_steps_never_wrap`), whatever the bound is and in whatever order the numbers
are.
-/

namespace VerifiableDelay

/-- What a signed word can hold. -/
def InWord (v : Int) : Prop := -2 ^ 63 ≤ v ∧ v < 2 ^ 63

namespace Window

/-- **A window in integers**: its words, its matrix and its steps, of any size. -/
structure Exact where
  upper : Int
  lower : Int
  p : Int
  q : Int
  r : Int
  s : Int
  steps : Nat
  deriving Repr, DecidableEq

namespace Exact

def quotient (e : Exact) : Int := e.upper.tdiv e.lower

/-- One step. -/
def next (e : Exact) : Exact :=
  { upper := e.lower, lower := e.upper - e.quotient * e.lower
    p := e.r, q := e.s
    r := e.p - e.quotient * e.r, s := e.q - e.quotient * e.s
    steps := e.steps + 1 }

/-- Whether the step that led to `e` is accepted. -/
def accepts (e : Exact) : Bool :=
  if e.steps % 2 = 0 then !(e.lower < -e.r || e.upper - e.lower < e.s - e.q)
  else !(e.lower < -e.s || e.upper - e.lower < e.r - e.p)

/-- The values that this is decided on: the second comparison is made only where
the first does not refuse. -/
def tested (e : Exact) : List Int :=
  if e.steps % 2 = 0 then
    -e.r :: if e.lower < -e.r then [] else [e.upper - e.lower, e.s - e.q]
  else
    -e.s :: if e.lower < -e.s then [] else [e.upper - e.lower, e.r - e.p]

/-- What a step is made of: the quotient, its three products, and the remainder and
the entries of the matrix that come of them. -/
def worked (e : Exact) : List Int :=
  [e.quotient, e.quotient * e.lower, e.quotient * e.s, e.quotient * e.r,
    e.next.lower, e.next.s, e.next.r]

/-- **All that an iteration works out**, a step and its test. -/
def values (e : Exact) : List Int := e.worked ++ e.next.tested

theorem next_lower (e : Exact) : e.next.lower = e.upper.tmod e.lower := by
  rw [Int.tmod_def, mul_comm]
  rfl

/-- Takes accepted steps while the lower number is above the bound. -/
def run (bound : Int) (e : Exact) : Exact :=
  if e.lower ≠ 0 ∧ bound < e.lower then
    if e.next.accepts then run bound e.next else e
  else e
termination_by e.lower.natAbs
decreasing_by
  rename_i h _
  rw [next_lower, Int.natAbs_tmod]
  exact Nat.mod_lt _ (by omega)

end Exact

/-- What the words of a window and its matrix say. -/
def exact (w : Window) : Exact :=
  { upper := w.upper.toInt, lower := w.lower.toInt
    p := w.p.toInt, q := w.q.toInt, r := w.r.toInt, s := w.s.toInt, steps := w.steps }

/-! ## Steps that do not wrap -/

variable {m : Descent} {u l : Int} {w v : Window}

/-- The two comparisons of a test, where what they are decided on is in a word. -/
theorem refusal_exact {lower upper x y z : Int64}
    (h : ∀ v ∈ -x.toInt :: (if lower.toInt < -x.toInt then []
      else [upper.toInt - lower.toInt, y.toInt - z.toInt]), InWord v) :
    (decide (lower < -x) || decide (upper - lower < y - z)) =
      (decide (lower.toInt < -x.toInt) ||
        decide (upper.toInt - lower.toInt < y.toInt - z.toInt)) := by
  obtain ⟨-, hhigh⟩ := h _ List.mem_cons_self
  have hneg : (-x).toInt = -x.toInt := toInt_neg_of_bounds (by omega)
  simp only [Int64.lt_iff_toInt_lt, hneg]
  by_cases hlt : lower.toInt < -x.toInt
  · rw [decide_eq_true hlt, Bool.true_or, Bool.true_or]
  · rw [if_neg hlt] at h
    obtain ⟨hlow₁, hhigh₁⟩ := h (upper.toInt - lower.toInt) (by simp)
    obtain ⟨hlow₂, hhigh₂⟩ := h (y.toInt - z.toInt) (by simp)
    rw [toInt_sub_of_bounds hlow₁ hhigh₁, toInt_sub_of_bounds hlow₂ hhigh₂]

/-- So a test of words is that of integers. -/
theorem accepts_exact (h : ∀ v ∈ w.exact.tested, InWord v) : w.accepts = w.exact.accepts := by
  have hsteps : w.exact.steps = w.steps := rfl
  rw [Exact.tested, hsteps] at h
  rw [accepts, Exact.accepts, hsteps]
  by_cases heven : w.steps % 2 = 0
  · rw [if_pos heven] at h ⊢
    rw [if_pos heven]
    exact congrArg not (refusal_exact h)
  · rw [if_neg heven] at h ⊢
    rw [if_neg heven]
    exact congrArg not (refusal_exact h)

/-- A step on words is that on integers. -/
theorem next_exact (h : ∀ v ∈ w.exact.worked, InWord v) : w.next.exact = w.exact.next := by
  obtain ⟨hlow, hhigh⟩ := h w.exact.quotient (by simp [Exact.worked])
  have hquotient : (w.upper / w.lower).toInt = w.exact.quotient := by
    rw [Int64.toInt_div]
    exact Int.bmod_eq_of_le hlow hhigh
  have hsub : ∀ {a b : Int64}, InWord (a.toInt - w.exact.quotient * b.toInt) →
      (a - w.upper / w.lower * b).toInt = a.toInt - w.exact.quotient * b.toInt := by
    rintro a b ⟨hlow, hhigh⟩
    rw [← hquotient] at hlow hhigh ⊢
    exact toInt_sub_mul_of_bounds hlow hhigh
  have hlower := hsub (h w.exact.next.lower (by simp [Exact.worked]))
  have hr := hsub (h w.exact.next.r (by simp [Exact.worked]))
  have hs := hsub (h w.exact.next.s (by simp [Exact.worked]))
  simp only [next, exact, Exact.next, Exact.mk.injEq, true_and, and_true]
  exact ⟨hlower, hr, hs⟩

/-- **Words and integers go on alike** where an iteration works out nothing that
is beyond a word. -/
theorem exact_next (h : ∀ v ∈ w.exact.values, InWord v) :
    w.next.exact = w.exact.next ∧ w.next.accepts = w.exact.next.accepts := by
  obtain ⟨hworked, htested⟩ := List.forall_mem_append.1 h
  have hnext := next_exact hworked
  rw [← hnext] at htested ⊢
  exact ⟨rfl, accepts_exact htested⟩

/-! ## The windows of a run -/

/-- The windows that a run of steps on words goes through. -/
inductive Visits (word : Int64) : Window → Window → Prop
  /-- The one it is at. -/
  | here (w : Window) : Visits word w w
  /-- Those from the next on, where a step is tried and accepted. -/
  | step {w v : Window} :
      w.lower ≠ 0 ∧ word < w.lower → w.next.accepts → Visits word w.next v → Visits word w v

/-- A run whose windows do not wrap is the run on integers. -/
theorem exact_run (word : Int64)
    (h : ∀ v, Visits word w v → v.lower ≠ 0 → ∀ x ∈ v.exact.values, InWord x) :
    (w.run word).exact = w.exact.run word.toInt := by
  have hcond_iff : ∀ w : Window, w.exact.lower ≠ 0 ∧ word.toInt < w.exact.lower ↔
      w.lower ≠ 0 ∧ word < w.lower := by
    intro w
    rw [Int64.lt_iff_toInt_lt, ne_eq, ne_eq, ← Int64.toInt_inj]
    rfl
  induction w using run.induct word with
  | case1 w hcond haccepts ih =>
    obtain ⟨hnext, htest⟩ := exact_next (h w (.here w) hcond.1)
    rw [run, if_pos hcond, if_pos haccepts, ih fun v hv => h v (.step hcond haccepts hv), hnext]
    conv_rhs => rw [Exact.run, if_pos ((hcond_iff w).2 hcond), if_pos (htest ▸ haccepts)]
  | case2 w hcond haccepts =>
    obtain ⟨-, htest⟩ := exact_next (h w (.here w) hcond.1)
    rw [run, if_pos hcond, if_neg haccepts, Exact.run, if_pos ((hcond_iff w).2 hcond),
      if_neg (htest ▸ haccepts)]
  | case3 w hcond =>
    rw [run, if_neg hcond, Exact.run, if_neg (mt (hcond_iff w).1 hcond)]

/-- The invariant of a window is that of all a run goes through. -/
theorem Visits.tracks {word : Int64} (h : Visits word w v) (hw : w.Tracks m u l)
    (hu : u < 2 ^ 63) (hl : l < 2 ^ 63) : ∃ n : Descent, v.Tracks n u l := by
  induction h generalizing m with
  | here w => exact ⟨m, hw⟩
  | step hcond _ _ ih =>
    obtain ⟨κ, hκ, -, hnext, -⟩ := hw.next (hw.lower_pos hcond.1) hu hl
    exact ih hnext

/-! ## What accounts for the words -/

namespace Tracks

/-- The products and the entries that a step comes to, in those of the descent. -/
theorem entries_eq (h : w.Tracks m u l) :
    w.exact.quotient * w.exact.s = m.sign * (m.s * w.exact.quotient) ∧
    w.exact.quotient * w.exact.r = -(m.sign * (m.r * w.exact.quotient)) ∧
    w.exact.next.s = -(m.sign * (m.s * w.exact.quotient + m.q)) ∧
    w.exact.next.r = m.sign * (m.r * w.exact.quotient + m.p) := by
  have hp : w.exact.p = m.sign * m.p := h.p_eq
  have hq : w.exact.q = -(m.sign * m.q) := h.q_eq
  have hr : w.exact.r = -(m.sign * m.r) := h.r_eq
  have hs : w.exact.s = m.sign * m.s := h.s_eq
  rw [Exact.next]
  refine ⟨?_, ?_, ?_, ?_⟩
  · rw [hs]
    ring
  · rw [hr]
    ring
  · rw [hq, hs]
    ring
  · rw [hp, hr]
    ring

/-- **A step is made of what the words that the window was opened on account for.**
The matrix that it comes to takes the words after it back to those before. -/
theorem fits_worked (h : w.Tracks m u l) (hlower : w.lower ≠ 0) (hu : u < 2 ^ 63)
    (hl : l < 2 ^ 63) : ∀ v ∈ w.exact.worked, InWord v := by
  have hpos := h.lower_pos hlower
  have hle := h.lower_le
  have hupper := Int64.toInt_lt w.upper
  have hquotient : w.exact.quotient = w.upper.toInt / w.lower.toInt :=
    Int.tdiv_eq_ediv_of_nonneg (show 0 ≤ w.upper.toInt by omega)
  have hκ0 : 0 ≤ w.exact.quotient := hquotient ▸ Int.ediv_nonneg (by omega) hpos.le
  have hκle : w.exact.quotient ≤ w.upper.toInt := hquotient ▸ Int.ediv_le_self _ (by omega)
  have hproduct : w.exact.quotient * w.lower.toInt ≤ w.upper.toInt :=
    hquotient ▸ Int.ediv_mul_le _ hpos.ne'
  have hnonneg : 0 ≤ w.exact.quotient * w.lower.toInt := mul_nonneg hκ0 hpos.le
  have hleads := h.leads.comp (Descent.leads_division hκ0 w.upper.toInt w.lower.toInt)
  have hs := hleads.s_le hpos (by omega)
  have hr := hleads.r_le hpos (by omega)
  rw [Descent.comp_division_s] at hs
  rw [Descent.comp_division_r] at hr
  have hsκ := mul_nonneg m.s_nonneg hκ0
  have hrκ := mul_nonneg m.r_nonneg hκ0
  have hq := m.q_nonneg
  have hp := m.p_nonneg
  have hsigned : ∀ x, 0 ≤ x → x < 2 ^ 63 → InWord (m.sign * x) ∧ InWord (-(m.sign * x)) := by
    intro x hx hx63
    unfold InWord
    rcases m.sign_eq with h1 | h1 <;> rw [h1] <;> omega
  obtain ⟨hsProduct, hrProduct, hsNext, hrNext⟩ := h.entries_eq
  have hlowerProduct : w.exact.quotient * w.exact.lower = w.exact.quotient * w.lower.toInt := rfl
  have hlowerNext : w.exact.next.lower = w.upper.toInt - w.exact.quotient * w.lower.toInt := rfl
  simp only [Exact.worked, List.forall_mem_cons, List.not_mem_nil, false_implies, implies_true,
    and_true]
  rw [hsProduct, hrProduct, hsNext, hrNext, hlowerProduct, hlowerNext]
  exact ⟨⟨by omega, by omega⟩, ⟨by omega, by omega⟩, (hsigned _ hsκ (by omega)).1,
    (hsigned _ hrκ (by omega)).2, ⟨by omega, by omega⟩, (hsigned _ (by omega) (by omega)).2,
    (hsigned _ (by omega) (by omega)).1⟩

/-- What a test is decided on is in a word, if what its second comparison adds is
where the lower number is not zero: the first refuses that. -/
theorem forall_mem_tested {lower difference x y : Int} (hdiff : InWord difference) (hx : 0 < x)
    (hx63 : x < 2 ^ 63) (hy : 0 < lower → 0 ≤ y ∧ y < 2 ^ 63) :
    ∀ v ∈ x :: (if lower < x then [] else [difference, y]), InWord v := by
  refine List.forall_mem_cons.2 ⟨⟨by omega, hx63⟩, ?_⟩
  split_ifs with hrefused
  · exact List.forall_mem_nil _
  · obtain ⟨hy0, hy63⟩ := hy (by omega)
    exact List.forall_mem_cons.2 ⟨hdiff, List.forall_mem_singleton.2 ⟨by omega, hy63⟩⟩

/-- **And so is the test** of words in order, of a matrix whose leading entries
count. -/
theorem fits_tested (h : w.Tracks m u l) (hu : u < 2 ^ 63) (hl : l < 2 ^ 63) (hr : 0 < m.r)
    (hs : 0 < m.s) (hlt : w.lower.toInt < w.upper.toInt) :
    ∀ v ∈ w.exact.tested, InWord v := by
  have hlow := h.lower_nonneg
  have hup := Int64.toInt_lt w.upper
  have hsu := h.leads.s_le (by omega) hlow
  have hrl := h.leads.r_le (by omega) hlow
  have hq := m.q_nonneg
  have hp := m.p_nonneg
  have hdiff : InWord (w.exact.upper - w.exact.lower) := by
    change -2 ^ 63 ≤ w.upper.toInt - w.lower.toInt ∧ w.upper.toInt - w.lower.toInt < 2 ^ 63
    omega
  have hsteps : w.exact.steps = w.steps := rfl
  have hsign := h.sign_eq
  rw [Exact.tested, hsteps]
  by_cases heven : w.steps % 2 = 0
  · rw [if_pos heven] at hsign ⊢
    have hentry : -w.exact.r = m.r := by
      rw [show w.exact.r = _ from h.r_eq, hsign]
      ring
    have hsum : w.exact.s - w.exact.q = m.s + m.q := by
      rw [show w.exact.s = _ from h.s_eq, show w.exact.q = _ from h.q_eq, hsign]
      ring
    rw [hentry, hsum]
    refine forall_mem_tested hdiff hr (by omega) fun hpos => ⟨by omega, ?_⟩
    exact (h.leads.s_add_q_le (by omega) hpos).trans_lt hu
  · rw [if_neg heven] at hsign ⊢
    have hentry : -w.exact.s = m.s := by
      rw [show w.exact.s = _ from h.s_eq, hsign]
      ring
    have hsum : w.exact.r - w.exact.p = m.r + m.p := by
      rw [show w.exact.r = _ from h.r_eq, show w.exact.p = _ from h.p_eq, hsign]
      ring
    rw [hentry, hsum]
    refine forall_mem_tested hdiff hs (by omega) fun hpos => ⟨by omega, ?_⟩
    exact (h.leads.r_add_p_le (by omega) hpos).trans_lt hl

/-- **No iteration wraps** on words that a window tracks. -/
theorem fits (h : w.Tracks m u l) (hlower : w.lower ≠ 0) (hu : u < 2 ^ 63) (hl : l < 2 ^ 63) :
    ∀ v ∈ w.exact.values, InWord v := by
  have hworked := h.fits_worked hlower hu hl
  obtain ⟨κ, hκ, hκ1, hnext, hlt⟩ := h.next (h.lower_pos hlower) hu hl
  obtain ⟨hr, hs⟩ := m.comp_division_pos hκ hκ1
  refine List.forall_mem_append.2 ⟨hworked, ?_⟩
  rw [← next_exact hworked]
  exact hnext.fits_tested hu hl hr hs hlt

end Tracks

/-! ## Windows on words in any order -/

section Opened

variable {a b : Int} {shift : Nat} {word : Int64}

/-- Words that are not in order have changed places after the first step, which is
a division by a larger one. -/
theorem tracks_next_opened (ha : 0 ≤ (Window.word a shift).toInt)
    (hab : (Window.word a shift).toInt < (Window.word b shift).toInt) :
    (opened a b shift).next.Tracks (.division 0 (Int.le_refl 0)) (Window.word a shift).toInt
      (Window.word b shift).toInt := by
  rw [Remainders.next_opened ha hab]
  refine ⟨⟨?_, ?_⟩, rfl, rfl, rfl, rfl, rfl, ha, hab.le⟩
  · simp [Descent.division, Remainders.flip, opened]
  · simp [Descent.division, Remainders.flip, opened]

/-- That step works out nothing but the two words, their difference, zero and one. -/
theorem Exact.values_of_lt {a b : Int} (ha : 0 ≤ a) (hab : a < b) :
    Exact.values ⟨a, b, 1, 0, 0, 1, 0⟩ = [0, 0, 0, 0, a, 0, 1, 0, b - a, 1] := by
  have hquotient : Exact.quotient ⟨a, b, 1, 0, 0, 1, 0⟩ = 0 := Int.tdiv_eq_zero_of_lt ha hab
  simp [values, worked, tested, next, hquotient, ha]

theorem fits_opened (ha : 0 ≤ (Window.word a shift).toInt)
    (hab : (Window.word a shift).toInt < (Window.word b shift).toInt) :
    ∀ v ∈ (opened a b shift).exact.values, InWord v := by
  have hb := Int64.toInt_lt (Window.word b shift)
  intro v hv
  change v ∈ Exact.values ⟨(Window.word a shift).toInt, (Window.word b shift).toInt,
    1, 0, 0, 1, 0⟩ at hv
  simp only [Exact.values_of_lt ha hab, List.mem_cons, List.not_mem_nil, or_false] at hv
  unfold InWord
  omega

/-- **No window of a run wraps**, of words that are not negative and in whatever
order; and they stay so. -/
theorem Visits.fits (ha : 0 ≤ (Window.word a shift).toInt)
    (hb : 0 ≤ (Window.word b shift).toInt) (h : Visits word (opened a b shift) v) :
    (0 ≤ v.upper.toInt ∧ 0 ≤ v.lower.toInt) ∧
      (v.lower ≠ 0 → ∀ x ∈ v.exact.values, InWord x) := by
  have hu := Int64.toInt_lt (Window.word a shift)
  have hl := Int64.toInt_lt (Window.word b shift)
  have hall : ∀ {n : Descent}, v.Tracks n (Window.word a shift).toInt (Window.word b shift).toInt →
      (0 ≤ v.upper.toInt ∧ 0 ≤ v.lower.toInt) ∧
        (v.lower ≠ 0 → ∀ x ∈ v.exact.values, InWord x) := fun hv =>
    ⟨⟨hv.lower_nonneg.trans hv.lower_le, hv.lower_nonneg⟩, fun hne => hv.fits hne hu hl⟩
  rcases lt_or_ge (Window.word a shift).toInt (Window.word b shift).toInt with hlt | hge
  · cases h with
    | here _ => exact ⟨⟨ha, hb⟩, fun _ => fits_opened ha hlt⟩
    | step _ _ hv =>
      obtain ⟨n, hn⟩ := hv.tracks (tracks_next_opened ha hlt) hu hl
      exact hall hn
  · have hopened : (opened a b shift).Tracks .start (Window.word a shift).toInt
        (Window.word b shift).toInt :=
      ⟨Descent.leads_start _ _, rfl, rfl, rfl, rfl, rfl, hb, hge⟩
    obtain ⟨n, hn⟩ := h.tracks hopened hu hl
    exact hall hn

end Opened

end Window

namespace Remainders

variable {a b bound : Int} {x : Remainders}

/-! ## Remainders for any bound -/

/-- What the steps of a window come to is in order. -/
theorem Ordered.apply_leap (h : x.Ordered) (bound : Int) : (x.apply (x.leap bound)).Ordered := by
  have hN : (0 : Int) < 2 ^ x.shift := by positivity
  rcases Window.run_spec (Window.word bound x.shift) h.opened (h.words h.upper_nonneg le_rfl).2
      (h.words h.lower_nonneg h.lower_lt.le).2 with heq | ⟨-, n, htracks, hr, hs, hcert, -⟩
  · rw [leap, heq, h.apply_opened]
    exact h
  · obtain ⟨U, L, hleads, hL, hLU, -⟩ := htracks.leads.lift hcert hs hr
      (Int.emod_nonneg x.upper hN.ne') (Int.emod_lt_of_pos x.upper hN)
      (Int.emod_nonneg x.lower hN.ne') (Int.emod_lt_of_pos x.lower hN)
    rw [Int.mul_ediv_add_emod, Int.mul_ediv_add_emod] at hleads
    rw [leap, Stage.apply_eq htracks hleads hL.le hLU]
    exact ⟨hL.le, hLU⟩

/-- **An advance puts remainders in order**, and keeps them. -/
theorem ordered_advance_of_nonneg (hupper : 0 ≤ x.upper) (hlower : 0 < x.lower) (bound : Int) :
    (x.advance bound).Ordered := by
  have hdivide := ordered_divide hupper hlower
  rw [Remainders.advance]
  change (if (x.leap bound).steps = 0 then x.divide else x.apply (x.leap bound)).Ordered
  split
  · exact hdivide
  · rename_i hsteps
    rcases lt_or_ge x.lower x.upper with hlt | hge
    · exact Ordered.apply_leap ⟨hlower.le, hlt⟩ bound
    · obtain ⟨hless, hleap⟩ := (leap_of_le hupper hge hlower).resolve_left hsteps
      rw [hleap, apply_flip hupper hless]
      exact hdivide.apply_leap bound

/-- So remainders never come to be negative. -/
theorem nonneg_advanceMany (bound : Int) (fuel : Nat) (hupper : 0 ≤ x.upper)
    (hlower : 0 ≤ x.lower) :
    0 ≤ (advanceMany bound fuel x).upper ∧ 0 ≤ (advanceMany bound fuel x).lower := by
  induction fuel generalizing x with
  | zero => exact ⟨hupper, hlower⟩
  | succ fuel ih =>
    rw [advanceMany]
    split
    · rename_i hcond
      have hordered := ordered_advance_of_nonneg hupper (by omega : 0 < x.lower) bound
      exact ih hordered.upper_nonneg hordered.lower_nonneg
    · exact ⟨hupper, hlower⟩

end Remainders

/-- **The words never wrap.** Of any two numbers that are not negative and for any
bound, take the remainders that any count of advances comes to, and any window that
a run of steps on their leading words goes through. Its words are not negative, and
all that an iteration from it works out, the candidate it may refuse included, is at
least `-2 ^ 63` and below `2 ^ 63`; so the next window and the verdict on it are those
of integers. And so the whole run is that of integers. -/
theorem word_steps_never_wrap {a b : Int} (ha : 0 ≤ a) (hb : 0 ≤ b) (bound : Int)
    (advances : Nat) {x : Remainders}
    (hx : x = Remainders.advanceMany bound advances (.start a b)) :
    (x.leap bound).exact =
      (Window.opened x.upper x.lower x.shift).exact.run (Window.word bound x.shift).toInt ∧
    ∀ w, Window.Visits (Window.word bound x.shift) (.opened x.upper x.lower x.shift) w →
      (0 ≤ w.upper.toInt ∧ 0 ≤ w.lower.toInt) ∧
      (w.lower ≠ 0 → (∀ v ∈ w.exact.values, -2 ^ 63 ≤ v ∧ v < 2 ^ 63) ∧
        w.next.exact = w.exact.next ∧ w.next.accepts = w.exact.next.accepts) := by
  obtain ⟨hupper, hlower⟩ := Remainders.nonneg_advanceMany (x := .start a b) bound advances
    ha hb
  rw [← hx] at hupper hlower
  have hN : (0 : Int) < 2 ^ x.shift := by positivity
  obtain ⟨hu, -⟩ := Remainders.toInt_word_shift (x := x) hupper (.inl le_rfl)
  obtain ⟨hl, -⟩ := Remainders.toInt_word_shift (x := x) hlower (.inr le_rfl)
  have hfits : ∀ w, Window.Visits (Window.word bound x.shift)
      (.opened x.upper x.lower x.shift) w → _ := fun w hw =>
    hw.fits (hu ▸ Int.ediv_nonneg hupper hN.le) (hl ▸ Int.ediv_nonneg hlower hN.le)
  refine ⟨Window.exact_run _ fun w hw => (hfits w hw).2, fun w hw => ⟨(hfits w hw).1, ?_⟩⟩
  intro hne
  have hvalues := (hfits w hw).2 hne
  exact ⟨hvalues, Window.exact_next hvalues⟩

/-- The largest quotient there is, with a bound that the lower word is above. The
step is worked out within a word, and refused. -/
theorem word_steps_never_wrap_63_bits :
    Window.word 0 0 < (Window.opened 9223372036854775807 1 0).lower ∧
    (Window.opened 9223372036854775807 1 0).exact.values =
      [9223372036854775807, 9223372036854775807, 9223372036854775807, 0,
        0, -9223372036854775807, 1, 9223372036854775807] ∧
    (∀ v ∈ (Window.opened 9223372036854775807 1 0).exact.values, -2 ^ 63 ≤ v ∧ v < 2 ^ 63) ∧
    (Window.opened 9223372036854775807 1 0).next.accepts = false := by
  obtain ⟨-, hsteps⟩ := word_steps_never_wrap (a := 9223372036854775807) (b := 1) (by decide)
    (by decide) 0 0 rfl
  obtain ⟨-, hnext⟩ := hsteps _ (.here _)
  obtain ⟨hvalues, -, haccepts⟩ := hnext (by decide)
  exact ⟨by decide, by decide +kernel, hvalues, haccepts.trans (by decide +kernel)⟩

end VerifiableDelay
