import VerifiableDelay.Integer.Size
/-!
# Euclid's algorithm, stopped half way

The remainder sequence of two integers, run until a remainder is at most a
bound, with the cofactors of the second integer. Runs of steps are taken on
the leading words of the remainders and applied at once: a step on words is
kept while it provably is the step of the integers the words stand for
(`Window.accepts`), and where not even one is kept, one exact division is
done instead.
-/

namespace VerifiableDelay

/-- The leading words of two consecutive remainders, and the steps taken on
them so far, as the matrix with rows `(p, q)` and `(r, s)`: the remainders
they stand for are `p * u + q * l` and `r * u + s * l`, for the remainders
`u` and `l` the window was opened on. -/
structure Window where
  upper : Int64
  lower : Int64
  p : Int64
  q : Int64
  r : Int64
  s : Int64
  steps : Nat
  deriving Repr, DecidableEq

namespace Window

/-- The bits of the magnitude of `x` from `shift` on, in one signed word. -/
def word (x : Int) (shift : Nat) : Int64 := Int64.ofNat (x.natAbs >>> shift)

/-- The window on two remainders from the bit `shift` on, no step taken. -/
def opened (upper lower : Int) (shift : Nat) : Window :=
  { upper := word upper shift, lower := word lower shift
    p := 1, q := 0, r := 0, s := 1, steps := 0 }

/-- One step on the words. -/
def next (w : Window) : Window :=
  let quotient := w.upper / w.lower
  { upper := w.lower, lower := w.upper - quotient * w.lower
    p := w.r, q := w.s
    r := w.p - quotient * w.r, s := w.q - quotient * w.s
    steps := w.steps + 1 }

/-- Whether the step that led to `w` is the step of the integers too,
whatever the bits below the words are. The cofactors alternate in sign, so
which of the two bounds the error depends on the parity of the steps. -/
def accepts (w : Window) : Bool :=
  if w.steps % 2 = 0 then !(w.lower < -w.r || w.upper - w.lower < w.s - w.q)
  else !(w.lower < -w.s || w.upper - w.lower < w.r - w.p)

/-- The remainder of truncating word division. -/
theorem sub_div_mul (a b : Int64) : a - a / b * b = a % b := by
  apply Int64.toInt_inj.1
  rw [Int64.toInt_sub, Int64.toInt_mul, Int64.toInt_div, Int.bmod_mul_bmod, Int.sub_bmod_bmod]
  have hdiv := Int.mul_tdiv_add_tmod a.toInt b.toInt
  have hrem : a.toInt - a.toInt.tdiv b.toInt * b.toInt = (a % b).toInt := by
    rw [Int64.toInt_mod, Int.mul_comm]
    omega
  have := Int64.le_toInt (a % b)
  have := Int64.toInt_lt (a % b)
  rw [hrem]
  apply Int.bmod_eq_of_le <;> omega

/-- A step makes the lower word smaller. -/
theorem natAbs_lower_next_lt {w : Window} (h : w.lower ≠ 0) :
    w.next.lower.toInt.natAbs < w.lower.toInt.natAbs := by
  have hne : w.lower.toInt ≠ 0 := fun h0 => h (Int64.toInt_inj.1 (by simpa using h0))
  simp only [next, sub_div_mul, Int64.toInt_mod, Int.natAbs_tmod]
  exact Nat.mod_lt _ (by omega)

/-- Takes accepted steps while the lower word is above the bound. -/
def run (bound : Int64) (w : Window) : Window :=
  if w.lower ≠ 0 ∧ bound < w.lower then
    if w.next.accepts then run bound w.next else w
  else w
termination_by w.lower.toInt.natAbs
decreasing_by
  rename_i h _
  exact natAbs_lower_next_lt h.1

end Window

/-- Two consecutive remainders, with cofactors such that
`upper + coUpper * b` and `lower + coLower * b` are multiples of `a`, for
the `a` and `b` the sequence started from. -/
structure Remainders where
  upper : Int
  lower : Int
  coUpper : Int
  coLower : Int
  deriving Repr, DecidableEq

namespace Remainders

/-- The sequence before its first step. -/
def start (a b : Int) : Remainders := ⟨a, b, 0, -1⟩

/-- One exact division. -/
def divide (x : Remainders) : Remainders :=
  let quotient := x.upper.tdiv x.lower
  { upper := x.lower, lower := x.upper.tmod x.lower
    coUpper := x.coLower, coLower := x.coUpper - quotient * x.coLower }

/-- Makes the lower remainder nonnegative, its cofactor following it. -/
def fixLower (x : Remainders) : Remainders :=
  if x.lower < 0 then { x with lower := -x.lower, coLower := -x.coLower } else x

/-- Makes the upper remainder nonnegative, its cofactor following it. -/
def fixUpper (x : Remainders) : Remainders :=
  if x.upper < 0 then { x with upper := -x.upper, coUpper := -x.coUpper } else x

/-- Applies the steps of a window to the remainders it was opened on. -/
def apply (x : Remainders) (w : Window) : Remainders :=
  let p := w.p.toInt
  let q := w.q.toInt
  let r := w.r.toInt
  let s := w.s.toInt
  fixUpper <| fixLower
    { upper := x.upper * p + x.lower * q, lower := x.lower * s + x.upper * r
      coUpper := x.coUpper * p + x.coLower * q, coLower := x.coLower * s + x.coUpper * r }

/-- The bit from which both remainders have at most sixty-three. -/
def shift (x : Remainders) : Nat :=
  max (bitLength x.upper.natAbs) (bitLength x.lower.natAbs) - 63

/-- A run of steps on the leading words, or one division where there is
none. -/
def advance (bound : Int) (x : Remainders) : Remainders :=
  let w := (Window.opened x.upper x.lower x.shift).run (Window.word bound x.shift)
  if w.steps = 0 then x.divide else x.apply w

/-- Advances at most `fuel` times, while the lower remainder is above the
bound. -/
def advanceMany (bound : Int) : Nat → Remainders → Remainders
  | 0, x => x
  | fuel + 1, x =>
    if x.lower ≠ 0 ∧ bound < x.lower then advanceMany bound fuel (x.advance bound) else x

end Remainders

/-- **The partial remainder sequence** of `a` and `b`: its first two
consecutive remainders of which the lower is at most the bound. Every
advance lowers a nonnegative lower remainder, so as many as it counts are
enough. -/
def partialGcd (a b bound : Int) : Remainders :=
  let x := Remainders.advanceMany bound (a.natAbs + b.natAbs + 1) (Remainders.start a b)
  if x.upper < 0 then ⟨-x.upper, x.lower, -x.coUpper, -x.coLower⟩ else x

end VerifiableDelay
