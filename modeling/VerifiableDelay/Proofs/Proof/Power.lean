import VerifiableDelay.Proof.Power
import VerifiableDelay.Proofs.Challenge
import VerifiableDelay.Proofs.Class.Laws
import VerifiableDelay.Proofs.Class.Power
import VerifiableDelay.Proofs.Quotient.Digits
import Mathlib.Algebra.BigOperators.Intervals
/-!
# The proof is the power to the quotient

Buckets `Hold` a class for each digit, and raising them multiplies the
powers of these classes to the digits. A column sorts its checkpoints under
the digits of its rows, so what it adds is a power of the start to the
digits of the column at their places; all columns together add the digits of
the quotient. **The proof is a form of the class of the start, raised to the
quotient of `2 ^ T` by the challenge** (`Power.prove_eq`), for digits of any
width that fits a word and any number of columns.
-/

namespace VerifiableDelay

open Form

variable {d : Discriminant} {f : Form} {c e : FormClass d}

/-- What is said of two classes has one challenge, whatever forms it is said
of. -/
theorem Challenge.prime_eq_of_represents {x x' y y' : Form} (hx : Represents d x c)
    (hx' : Represents d x' c) (hy : Represents d y e) (hy' : Represents d y' e) :
    prime d x y = prime d x' y' :=
  prime_congr hx.definite hx'.definite hy.definite hy'.definite
    (reduced_eq_of_represents hx hx') (reduced_eq_of_represents hy hy')

/-- Positions by rows and columns. -/
theorem prod_range_mul {M : Type*} [CommMonoid M] (n m : Nat) (F : Nat → M) :
    ∏ p ∈ Finset.range (n * m), F p =
      ∏ i ∈ Finset.range n, ∏ j ∈ Finset.range m, F (i * m + j) := by
  induction n with
  | zero => simp
  | succ n ih => rw [Nat.succ_mul, Finset.prod_range_add, Finset.prod_range_succ, ih]

/-- A loop each of whose steps multiplies by a class multiplies by their
product. -/
theorem represents_foldl {step : Form → Nat → Form} {ψ : Nat → FormClass d} {n : Nat}
    (hstep : ∀ i < n, ∀ f c, Represents d f c → Represents d (step f i) (c * ψ i))
    (hf : Represents d f c) :
    Represents d ((List.range n).foldl step f) (c * ∏ i ∈ Finset.range n, ψ i) := by
  induction n with
  | zero => simpa using hf
  | succ n ih =>
    rw [List.range_succ, List.foldl_append, Finset.prod_range_succ, ← mul_assoc]
    exact hstep n (Nat.lt_succ_self n) _ _ (ih fun i hi => hstep i (Nat.lt_succ_of_lt hi))

/-- **The rows are those that begin** before the end of the run. -/
theorem Parameters.lt_rows_iff {parameters : Parameters} {iterations i : Nat} :
    i < parameters.rows iterations ↔ parameters.stride * i < iterations := by
  have hpos := parameters.stride_pos
  rw [rows, Nat.lt_iff_add_one_le, Nat.le_div_iff_mul_le hpos, Nat.succ_mul, Nat.mul_comm]
  omega

namespace Power

variable {width highWidth lowWidth n : Nat} {b : Buckets} {φ : Nat → FormClass d}

/-- **The buckets hold a class for each digit**: one that is empty holds the
neutral class. -/
structure Hold (d : Discriminant) (width : Nat) (b : Buckets) (φ : Nat → FormClass d) : Prop where
  size_eq : b.size = 2 ^ width
  each : ∀ digit < 2 ^ width, (bucket b digit = none ∧ φ digit = 1) ∨
    ∃ f, bucket b digit = some f ∧ Represents d f (φ digit)

theorem hold_noBuckets (d : Discriminant) (width : Nat) : Hold d width (noBuckets width) 1 where
  size_eq := by simp [noBuckets]
  each := by
    intro digit hdigit
    refine .inl ⟨?_, rfl⟩
    simp [bucket, noBuckets, hdigit]

/-- **Sorting a form under a digit** multiplies its class into the one held
there. -/
theorem Hold.sortInto (h : Hold d width b φ) (digit : Nat) (hf : Represents d f c) :
    Hold d width (sortInto d b digit f) (φ * Pi.mulSingle digit c) where
  size_eq := by simp [Power.sortInto, h.size_eq]
  each := by
    intro other hother
    have hsize : other < b.size := h.size_eq ▸ hother
    by_cases heq : digit = other
    · subst heq
      right
      rw [Pi.mul_apply, Pi.mulSingle_eq_same]
      rcases h.each digit hother with ⟨hnone, hone⟩ | ⟨g, hg, hrep⟩
      · refine ⟨f, ?_, by rwa [hone, one_mul]⟩
        simp [bucket, hsize] at hnone
        simp [bucket, Power.sortInto, Array.getElem_modify, hsize, hnone]
      · refine ⟨composite d g f, ?_, hrep.composite hf⟩
        simp [bucket, hsize] at hg
        simp [bucket, Power.sortInto, Array.getElem_modify, hsize, hg]
    · have hbucket : bucket (Power.sortInto d b digit f) other = bucket b other := by
        simp [bucket, Power.sortInto, Array.getElem?_modify, heq]
      rw [hbucket, Pi.mul_apply, Pi.mulSingle_eq_of_ne (Ne.symm heq), mul_one]
      exact h.each other hother

/-- **The product of buckets** is of the product of the classes they hold. -/
theorem Hold.product (h : Hold d width b φ) {digits : Nat → Nat}
    (hdigits : ∀ i < n, digits i < 2 ^ width) :
    Represents d (product d b ((List.range n).map digits))
      (∏ i ∈ Finset.range n, φ (digits i)) := by
  rw [Power.product, List.foldl_map, ← one_mul (∏ i ∈ Finset.range n, φ (digits i))]
  refine represents_foldl (fun i hi g c hg => ?_) (.identity d)
  rcases h.each _ (hdigits i hi) with ⟨hnone, hone⟩ | ⟨f, hf, hrep⟩
  · rw [hnone, hone, mul_one]
    exact hg
  · rw [hf]
    exact hg.composite hrep

/-- A digit from its halves. -/
theorem combine_lt {high low : Nat} (hwidth : highWidth + lowWidth = width)
    (hhigh : high < 2 ^ highWidth) (hlow : low < 2 ^ lowWidth) :
    high * 2 ^ lowWidth + low < 2 ^ width := by
  rw [← hwidth, pow_add]
  have := Nat.mul_le_mul_right (2 ^ lowWidth) (Nat.succ_le_of_lt hhigh)
  rw [Nat.succ_mul] at this
  omega

theorem Hold.raiseHigh (h : Hold d width b φ) (hwidth : highWidth + lowWidth = width)
    (hf : Represents d f c) :
    Represents d (raiseHigh d highWidth lowWidth b f)
      (c * ∏ high ∈ Finset.range (2 ^ highWidth),
        (∏ low ∈ Finset.range (2 ^ lowWidth), φ (high * 2 ^ lowWidth + low)) ^
          (high * 2 ^ lowWidth)) := by
  refine represents_foldl (fun high hhigh g c hg => hg.composite (Represents.pow ?_ _)) hf
  exact h.product fun low hlow => combine_lt hwidth hhigh hlow

theorem Hold.raiseLow (h : Hold d width b φ) (hwidth : highWidth + lowWidth = width)
    (hf : Represents d f c) :
    Represents d (raiseLow d highWidth lowWidth b f)
      (c * ∏ low ∈ Finset.range (2 ^ lowWidth),
        (∏ high ∈ Finset.range (2 ^ highWidth), φ (high * 2 ^ lowWidth + low)) ^ low) := by
  refine represents_foldl (fun low hlow g c hg => hg.composite (Represents.pow ?_ _)) hf
  exact h.product fun high hhigh => combine_lt hwidth hhigh hlow

/-- **Raising the buckets** multiplies in every class to the power of its
digit. -/
theorem Hold.raise (h : Hold d width b φ) (hf : Represents d f c) :
    Represents d (raise d width b f) (c * ∏ digit ∈ Finset.range (2 ^ width), φ digit ^ digit) := by
  have hwidth : width / 2 + (width - width / 2) = width := by omega
  have hrep := h.raiseLow hwidth (h.raiseHigh hwidth hf)
  have hprod : ∏ digit ∈ Finset.range (2 ^ width), φ digit ^ digit =
      (∏ high ∈ Finset.range (2 ^ (width / 2)),
        (∏ low ∈ Finset.range (2 ^ (width - width / 2)),
          φ (high * 2 ^ (width - width / 2) + low)) ^ (high * 2 ^ (width - width / 2))) *
      ∏ low ∈ Finset.range (2 ^ (width - width / 2)),
        (∏ high ∈ Finset.range (2 ^ (width / 2)),
          φ (high * 2 ^ (width - width / 2) + low)) ^ low := by
    conv_lhs => rw [← hwidth, pow_add, prod_range_mul]
    simp only [pow_add, Finset.prod_mul_distrib, Finset.prod_pow]
    rw [Finset.prod_comm (f := fun i j => φ (i * 2 ^ (width - width / 2) + j) ^ j)]
    simp only [Finset.prod_pow]
  rw [hprod, ← mul_assoc]
  exact hrep

/-- What the sorted form adds to the product of the powers. -/
theorem prod_mulSingle_pow {digit : Nat} (hdigit : digit < n) (φ : Nat → FormClass d)
    (c : FormClass d) :
    ∏ i ∈ Finset.range n, (φ * Pi.mulSingle digit c : Nat → FormClass d) i ^ i =
      (∏ i ∈ Finset.range n, φ i ^ i) * c ^ digit := by
  simp only [Pi.mul_apply, mul_pow, Finset.prod_mul_distrib]
  congr 1
  rw [Finset.prod_eq_single_of_mem digit (Finset.mem_range.2 hdigit), Pi.mulSingle_eq_same]
  intro i _ hi
  rw [Pi.mulSingle_eq_of_ne hi, one_pow]

variable {modulus iterations column row : Nat} {parameters : Parameters}
variable {checkpoints : Checkpoints} {w : Quotient.Walk} {x : FormClass d}

/-- **The checkpoints are those of a run**: on the stride, the powers of the
start's class that squaring leads to. -/
def Faithful (d : Discriminant) (checkpoints : Checkpoints) (x : FormClass d)
    (stride iterations : Nat) : Prop :=
  ∀ i, stride * i < iterations →
    ∃ f, checkpoints i = .ok f ∧ Represents d f (x ^ 2 ^ (stride * i))

/-- The class that a row adds to a column. -/
def rowClass (x : FormClass d) (modulus : Nat) (parameters : Parameters)
    (iterations column row : Nat) : FormClass d :=
  (x ^ 2 ^ (parameters.stride * row)) ^
    Quotient.digitWithin modulus parameters.width iterations (row * parameters.columns + column)

/-- A row that a digit is left for has a checkpoint. -/
theorem stride_mul_lt
    (hle : parameters.width * (row * parameters.columns + column + 1) ≤ iterations) :
    parameters.stride * row < iterations := by
  have h : parameters.stride * row + parameters.width * (column + 1) =
      parameters.width * (row * parameters.columns + column + 1) := by
    unfold Parameters.stride
    ring
  have := Nat.mul_pos parameters.width_pos (show 0 < column + 1 by omega)
  omega

/-- Where no digit is left for a row, none is left for those above. -/
theorem prod_rowClass_eq_one
    (hlt : iterations < parameters.width * (row * parameters.columns + column + 1)) (rows : Nat) :
    ∏ i ∈ Finset.range rows, rowClass x modulus parameters iterations column (row + i) = 1 := by
  refine Finset.prod_eq_one fun i _ => ?_
  have hindex : row * parameters.columns + column + 1 ≤
      (row + i) * parameters.columns + column + 1 := by
    rw [Nat.add_mul]
    omega
  have := Nat.mul_le_mul_left parameters.width hindex
  rw [rowClass, Quotient.digitWithin, if_neg (by omega), pow_zero]

/-- **Sorting a column** adds the class of each of its rows. -/
theorem sortColumn_spec (rows : Nat) (hm : 0 < modulus) (hwidth : parameters.width ≤ 63)
    (hcheck : Faithful d checkpoints x parameters.stride iterations)
    (hw : w.At modulus parameters iterations (row * parameters.columns + column))
    (hb : Hold d parameters.width b φ) :
    ∃ b' φ', sortColumn d checkpoints column rows row w b = .ok b' ∧
      Hold d parameters.width b' φ' ∧
      ∏ i ∈ Finset.range (2 ^ parameters.width), φ' i ^ i =
        (∏ i ∈ Finset.range (2 ^ parameters.width), φ i ^ i) *
          ∏ i ∈ Finset.range rows, rowClass x modulus parameters iterations column (row + i) := by
  induction rows generalizing row w b φ with
  | zero => exact ⟨b, φ, rfl, hb, by simp⟩
  | succ rows ih =>
    rw [sortColumn, hw.iterations_eq, hw.parameters_eq]
    by_cases hle : parameters.width * (row * parameters.columns + column + 1) ≤ iterations
    · obtain ⟨f, hf, hrep⟩ := hcheck row (stride_mul_lt hle)
      obtain ⟨hdigit, hnext⟩ := hw.next_row hm hwidth hle
      have hsorted := hb.sortInto
        (Quotient.digit modulus parameters.width iterations (row * parameters.columns + column)) hrep
      obtain ⟨b', φ', heq, hold, hprod⟩ := ih hnext hsorted
      refine ⟨b', φ', ?_, hold, ?_⟩
      · rw [if_neg (by omega)]
        generalize w.next (row * parameters.columns + column) = next at hdigit heq
        obtain ⟨digit, w'⟩ := next
        simp only at hdigit heq
        rw [hdigit, hf]
        exact heq
      · rw [hprod, prod_mulSingle_pow (Quotient.digit_lt hm), Finset.prod_range_succ', mul_assoc,
          mul_comm (∏ i ∈ Finset.range rows, _)]
        congr 2
        · rw [Nat.add_zero, rowClass, Quotient.digitWithin, if_pos hle]
        · exact Finset.prod_congr rfl fun i _ => by rw [Nat.add_assoc, Nat.add_comm 1 i]
    · -- the column has ended, and the rows above have no digit either
      have hlt : iterations < parameters.width * (row * parameters.columns + column + 1) := by
        omega
      rw [if_pos hlt]
      exact ⟨b, φ, rfl, hb, by rw [prod_rowClass_eq_one hlt, mul_one]⟩

/-- **Taking in columns** raises what was there, and adds every column at
its place. -/
theorem takeColumns_spec (rows : Nat) (hm : 0 < modulus) (hwidth : parameters.width ≤ 63)
    (hcheck : Faithful d checkpoints x parameters.stride iterations) (columns : Nat)
    (hf : Represents d f c) :
    ∃ g, takeColumns d checkpoints rows (.ofQuotient modulus parameters iterations) columns f =
        .ok g ∧
      Represents d g (c ^ 2 ^ (parameters.width * columns) *
        ∏ j ∈ Finset.range columns, (∏ i ∈ Finset.range rows,
          rowClass x modulus parameters iterations j i) ^ 2 ^ (parameters.width * j)) := by
  induction columns generalizing f c with
  | zero => exact ⟨f, rfl, by simpa using hf⟩
  | succ column ih =>
    have hw := Quotient.Walk.at_firstRow hm parameters iterations column
    obtain ⟨b, φ, hsort, hold, hprod⟩ := sortColumn_spec rows hm hwidth hcheck hw
      (hold_noBuckets d parameters.width)
    have hraised := hold.raise (hf.pow (2 ^ parameters.width))
    obtain ⟨g, hg, hrep⟩ := ih hraised
    refine ⟨g, ?_, ?_⟩
    · rw [takeColumns]
      simp only [Quotient.Walk.ofQuotient] at hsort hg ⊢
      rw [hsort]
      exact hg
    · simp only [Pi.one_apply, one_pow, Finset.prod_const_one, one_mul, Nat.zero_add] at hprod
      rw [hprod, mul_pow, ← pow_mul, ← pow_add, mul_assoc] at hrep
      rw [Finset.prod_range_succ, Nat.mul_succ, Nat.add_comm (parameters.width * column),
        mul_comm (∏ j ∈ Finset.range column, _)]
      exact hrep

/-- The rows have room for every digit. -/
theorem div_le_rows_mul (parameters : Parameters) (iterations : Nat) :
    iterations / parameters.width ≤ parameters.rows iterations * parameters.columns := by
  have hrows : iterations ≤ parameters.stride * parameters.rows iterations :=
    not_lt.1 fun hlt => (Parameters.lt_rows_iff.2 hlt).false
  refine Nat.div_le_of_le_mul (hrows.trans_eq ?_)
  unfold Parameters.stride
  ring

/-- **All columns together** are the power to the quotient. -/
theorem prod_rowClass (x : FormClass d) (hm : 2 ^ parameters.width ≤ modulus) :
    ∏ j ∈ Finset.range parameters.columns, (∏ i ∈ Finset.range (parameters.rows iterations),
        rowClass x modulus parameters iterations j i) ^ 2 ^ (parameters.width * j) =
      x ^ (2 ^ iterations / modulus) := by
  have hterm : ∀ i j, rowClass x modulus parameters iterations j i ^ 2 ^ (parameters.width * j) =
      x ^ (Quotient.digitWithin modulus parameters.width iterations (i * parameters.columns + j) *
        2 ^ (parameters.width * (i * parameters.columns + j))) := by
    intro i j
    rw [rowClass, ← pow_mul, ← pow_mul]
    congr 1
    rw [show parameters.width * (i * parameters.columns + j) =
        parameters.stride * i + parameters.width * j by unfold Parameters.stride; ring, pow_add]
    ring
  simp only [← Finset.prod_pow, hterm]
  rw [Finset.prod_comm, ← prod_range_mul (F := fun p => x ^ (Quotient.digitWithin modulus
    parameters.width iterations p * 2 ^ (parameters.width * p))), Finset.prod_pow_eq_pow_sum,
    Quotient.sum_digitWithin parameters.width_pos hm (div_le_rows_mul parameters iterations)]

/-- **The proof exists and is the power of the start to the quotient**, if
there is a challenge and the checkpoints are those of the run. -/
theorem prove_eq {x' y : Form} (hwidth : parameters.width ≤ 63)
    (hcheck : Faithful d checkpoints x parameters.stride iterations)
    (hchallenge : Challenge.prime d x' y = .ok modulus) :
    ∃ proof, prove d x' y checkpoints iterations parameters false = .ok proof ∧
      Represents d proof (x ^ (2 ^ iterations / modulus)) ∧ proof.isReduced = true := by
  have hm := Challenge.two_pow_width_le_of_prime hchallenge hwidth
  by_cases hzero : iterations = 0
  · subst hzero
    refine ⟨identity d, if_pos rfl, ?_, (Canonical.identity d).isReduced⟩
    have : 2 ^ 0 / modulus = 0 := Nat.div_eq_of_lt (lt_of_lt_of_le (by
      exact Nat.one_lt_two_pow parameters.width_pos.ne') hm)
    rw [this, pow_zero]
    exact .identity d
  · obtain ⟨g, hg, hrep⟩ := takeColumns_spec (parameters.rows iterations)
      (lt_of_lt_of_le (by positivity) hm) hwidth hcheck parameters.columns (.identity d)
    rw [one_pow, one_mul, prod_rowClass x hm] at hrep
    refine ⟨g.reduced, ?_, hrep.reduced, hrep.isReduced_reduced⟩
    rw [prove, if_neg hzero, hchallenge]
    simp only [ofFormResult, bind, Except.bind, Bool.false_eq_true, if_false, hg]
    rfl

end Power

end VerifiableDelay
