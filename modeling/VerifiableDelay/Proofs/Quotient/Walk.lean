import VerifiableDelay.Proofs.Quotient.Digits
/-!
# Walks read the quotient

The digit at a position is a run of bits of the quotient itself
(`Quotient.digit_eq_shiftRight`), so one taken afresh is those bits, or there is
none. A walk goes up one column after another, in any order and as far as it
likes, and forgets all of that at the foot of the next one. So **what it reads on
the way up is the digit taken afresh, wherever it was before**
(`Quotient.walk_reads_quotient`).
-/

namespace VerifiableDelay

namespace Quotient

variable {modulus width iterations position : Nat}

/-! ## Digits are bits -/

/-- **A digit is a run of bits of the quotient.** -/
theorem digit_eq_shiftRight (hm : 0 < modulus) (hle : width * (position + 1) ≤ iterations) :
    digit modulus width iterations position =
      (2 ^ iterations / modulus) >>> (width * position) % 2 ^ width := by
  have hshifted : (2 ^ iterations / modulus) >>> (width * position) =
      2 ^ (iterations - width * (position + 1) + width) / modulus := by
    rw [Nat.mul_succ] at hle
    rw [Nat.shiftRight_eq_div_pow, Nat.div_div_eq_div_mul, Nat.mul_comm, ← Nat.div_div_eq_div_mul,
      Nat.pow_div (by omega) Nat.two_pos, Nat.mul_succ]
    congr 2
    omega
  rw [hshifted, two_pow_add_div hm, Nat.mul_add_mod]
  exact (Nat.mod_eq_of_lt (digit_lt hm)).symm

/-- **A digit taken afresh** is there up to the length of the run, and made of
the bits at its position. -/
theorem digitAt_eq_ite (hm : 0 < modulus) (hwidth : width ≤ 63) :
    digitAt modulus width iterations position =
      if width * (position + 1) ≤ iterations then
        .ok ((2 ^ iterations / modulus) >>> (width * position) % 2 ^ width)
      else .error (.noDigit position) := by
  split
  · rename_i hle
    rw [digitAt_eq hm hwidth hle, digit_eq_shiftRight hm hle]
  · rename_i hle
    rw [digitAt, if_pos (by rwa [Nat.mul_comm, ← Nat.not_le])]

namespace Walk

variable {parameters : Parameters} {w : Walk} {row column : Nat}

/-! ## Wherever a walk was -/

/-- **The states that a walk comes to**: it goes to the foot of any column, and
up from wherever it is, whatever position it is asked about. -/
inductive Visits (modulus : Nat) (parameters : Parameters) (iterations : Nat) : Walk → Prop
  | start : Visits modulus parameters iterations (ofQuotient modulus parameters iterations)
  | foot {w : Walk} (column : Nat) : Visits modulus parameters iterations w →
      Visits modulus parameters iterations (w.startColumn column)
  | up {w : Walk} (position : Nat) : Visits modulus parameters iterations w →
      Visits modulus parameters iterations (w.next position).2

/-- A step up changes the remainder only. -/
theorem exists_next_eq (w : Walk) (position : Nat) :
    ∃ remainder, (w.next position).2 = { w with remainder } := by
  unfold next
  split
  · exact ⟨w.remainder, rfl⟩
  · split <;> exact ⟨_, rfl⟩

/-- All that a walk ever changes is its remainder. -/
theorem Visits.exists_eq (h : Visits modulus parameters iterations w) :
    ∃ remainder, w = { ofQuotient modulus parameters iterations with remainder } := by
  induction h with
  | start => exact ⟨_, rfl⟩
  | foot column _ ih =>
    obtain ⟨remainder, rfl⟩ := ih
    exact ⟨_, rfl⟩
  | @up w position _ ih =>
    obtain ⟨remainder, rfl⟩ := ih
    obtain ⟨remainder', heq⟩ := exists_next_eq
      { ofQuotient modulus parameters iterations with remainder } position
    exact ⟨remainder', heq⟩

/-- **At the foot of a column it does not matter where the walk was before.** -/
theorem Visits.startColumn_eq (h : Visits modulus parameters iterations w) (column : Nat) :
    w.startColumn column = (ofQuotient modulus parameters iterations).startColumn column := by
  obtain ⟨remainder, rfl⟩ := h.exists_eq
  rfl

/-! ## Up a column -/

/-- The walk after it went to the foot of a column and up so many rows. -/
def climb (w : Walk) (column : Nat) : (row : Nat) → Walk
  | 0 => w.startColumn column
  | row + 1 => ((w.climb column row).next (row * w.parameters.columns + column)).2

/-- **On the way up a column the walk is at its rows**, as far as these have
digits. -/
theorem Visits.at_climb (h : Visits modulus parameters iterations w) (hm : 0 < modulus)
    (hwidth : parameters.width ≤ 63)
    (hle : parameters.width * (row * parameters.columns + column + 1) ≤ iterations) :
    At modulus parameters iterations (row * parameters.columns + column) (w.climb column row) := by
  have hparameters : w.parameters = parameters := by
    obtain ⟨remainder, rfl⟩ := h.exists_eq
    rfl
  induction row with
  | zero =>
    rw [climb, h.startColumn_eq]
    exact at_firstRow hm parameters iterations column
  | succ row ih =>
    -- the row below has its digit, too, so the step from it was a right one
    have hbelow : parameters.width * (row * parameters.columns + column + 1) ≤ iterations := by
      refine le_trans (Nat.mul_le_mul_left _ ?_) hle
      rw [Nat.succ_mul]
      omega
    rw [climb, hparameters]
    exact ((ih hbelow).next_row hm hwidth hbelow).2

end Walk

/-- **A walk reads the quotient.** Let the quotient of `2 ^ iterations` by any
positive modulus, odd or even, be cut into digits of a width below that of a
word, dealt to any number of columns. Wherever a walk was before, the step that
it makes from a row of the column it has gone up is to read the digit that is
taken afresh, which is there and is the run of bits of the quotient at its
position. Afresh there is a digit at every position that the run is long enough
for, and past that the error that there is none. -/
theorem walk_reads_quotient {parameters : Parameters} (hm : 0 < modulus)
    (hwidth : parameters.width ≤ 63) :
    (∀ w, Walk.Visits modulus parameters iterations w → ∀ column row position,
      position = row * parameters.columns + column →
      parameters.width * (position + 1) ≤ iterations →
      ((w.climb column row).next position).1 =
          digitAt modulus parameters.width iterations position ∧
        digitAt modulus parameters.width iterations position =
          .ok ((2 ^ iterations / modulus) >>> (parameters.width * position) %
            2 ^ parameters.width)) ∧
    ∀ position,
      (digitAt modulus parameters.width iterations position = .error (.noDigit position) ↔
        iterations < parameters.width * (position + 1)) ∧
      ∀ error, digitAt modulus parameters.width iterations position = .error error →
        error = .noDigit position := by
  refine ⟨fun w hw column row position hposition hle => ?_, fun position => ?_⟩
  · subst hposition
    have hread := ((hw.at_climb hm hwidth hle).next_row hm hwidth hle).1
    have hafresh := digitAt_eq hm hwidth hle
    exact ⟨hread.trans hafresh.symm, by rw [hafresh, digit_eq_shiftRight hm hle]⟩
  · rw [digitAt_eq_ite hm hwidth]
    split
    · rename_i hle
      refine ⟨⟨fun h => (by cases h), fun hlt => absurd hle (Nat.not_le.2 hlt)⟩, ?_⟩
      intro error h
      cases h
    · rename_i hle
      refine ⟨⟨fun _ => Nat.not_le.1 hle, fun _ => rfl⟩, ?_⟩
      intro error h
      cases h
      rfl

/-- Digits of five bits in three columns. -/
def parameters35 : Parameters := ⟨5, 3, Nat.succ_pos 4, Nat.succ_pos 2⟩

/-- A walk that has been up the last column and has begun with the first. -/
def strolled35 (modulus : Nat) : Walk :=
  ((((Walk.ofQuotient modulus parameters35 100).startColumn 2).next 2).2.startColumn 0 |>.next 0).2

/-- Asked for row three of the second column, a walk that was elsewhere before
reads the bits 50 to 54 of the quotient, both for a modulus that two has an
inverse by and for one that it has none by. -/
theorem walk_reads_quotient_35_36 :
    (0 < 35 ∧ 0 < 36 ∧ parameters35.width ≤ 63) ∧
    ((strolled35 35).inverse = some 22 ∧ (strolled35 36).inverse = none) ∧
    (((strolled35 35).climb 1 3).next 10).1 = .ok ((2 ^ 100 / 35) >>> 50 % 32) ∧
    (((strolled35 36).climb 1 3).next 10).1 = .ok ((2 ^ 100 / 36) >>> 50 % 32) ∧
    digitAt 35 5 100 20 = .error (.noDigit 20) := by
  have hvisits : ∀ modulus, Walk.Visits modulus parameters35 100 (strolled35 modulus) :=
    fun modulus => .up 0 (.foot 0 (.up 2 (.foot 2 .start)))
  have hodd := @walk_reads_quotient 35 100 parameters35 (by decide) (by decide)
  have heven := @walk_reads_quotient 36 100 parameters35 (by decide) (by decide)
  obtain ⟨hread, hdigit⟩ := hodd.1 _ (hvisits 35) 1 3 10 rfl (by decide)
  obtain ⟨hread', hdigit'⟩ := heven.1 _ (hvisits 36) 1 3 10 rfl (by decide)
  exact ⟨by decide, ⟨by decide +kernel, by decide +kernel⟩, hread.trans hdigit,
    hread'.trans hdigit', (hodd.2 20).1.2 (by decide)⟩

end Quotient

end VerifiableDelay
