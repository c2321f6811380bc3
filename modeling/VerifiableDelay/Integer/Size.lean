/-!
# Integer sizes — words, lengths, roots and multiples

The measures the wire formats and the composition bound are stated in. A
length is that of the magnitude, and zero still takes one bit, so that
every number has a nonempty encoding. Roots are floors.
-/

namespace VerifiableDelay

-- powers of natural numbers are those of the core library
attribute [local instance (high)] instPowNat

/-- How many numbers a machine word can hold, from zero on. -/
def wordCount : Nat := 2 ^ (64 : Nat)

/-- Whether a machine word can hold `n`. -/
def isWord (n : Nat) : Bool := n < wordCount

/-- Whether half a machine word can. -/
def isHalfWord (n : Nat) : Bool := n < 2 ^ (32 : Nat)

/-- Bits of the binary expansion of `n`. Zero takes one bit. -/
def bitLength (n : Nat) : Nat := n.log2 + 1

/-- Bytes that hold the `bitLength n` bits of `n`. -/
def byteLength (n : Nat) : Nat := (bitLength n + 7) / 8

/-- The largest multiple of `step` that is at most `n`. The only multiple of
zero is zero. -/
def roundDown (n step : Nat) : Nat := n - n % step

/-- Rounding that refuses a step of zero. -/
def roundDown? (n step : Nat) : Option Nat :=
  if step = 0 then none else some (roundDown n step)

/-- One descent of the iteration for square roots: while the mean of `x`
and `n / x` is below `x`, it is the better bound. -/
def sqrtDescend (n x : Nat) : Nat :=
  let y := (x + n / x) / 2
  if y < x then sqrtDescend n y else x
termination_by x

/-- The floor of the square root. The descent starts from a power of two
above the root. -/
def floorSqrt (n : Nat) : Nat := sqrtDescend n (2 ^ (n.log2 / 2 + 1))

/-- The floor of the fourth root: the floor of a root of a floor is that of
the root of the root. -/
def floorFourthRoot (n : Nat) : Nat := floorSqrt (floorSqrt n)

/-- Whether `n` is the square of a natural number. -/
def isPerfectSquare (n : Nat) : Bool := floorSqrt n * floorSqrt n == n

theorem bitLength_zero : bitLength 0 = 1 := by decide

theorem bitLength_pos (n : Nat) : 0 < bitLength n := Nat.succ_pos _

theorem byteLength_pos (n : Nat) : 0 < byteLength n := by
  have := bitLength_pos n
  unfold byteLength
  omega

/-- A number is below the power of two its length names. -/
theorem lt_two_pow_bitLength (n : Nat) : n < 2 ^ bitLength n := Nat.lt_log2_self

theorem roundDown_le (n step : Nat) : roundDown n step ≤ n := Nat.sub_le _ _

theorem dvd_roundDown (n step : Nat) : step ∣ roundDown n step := Nat.dvd_sub_mod n

theorem roundDown_eq_div_mul (n step : Nat) : roundDown n step = n / step * step := by
  have hsplit := Nat.div_add_mod' n step
  rw [roundDown]
  omega

/-- No word is left out between the multiples of a power of two: where such a
power and a number leave their word together, so does it with the multiple
below the number. -/
theorem wordCount_le_roundDown_add {n k : Nat} (h : wordCount ≤ n + 2 ^ k) :
    wordCount ≤ roundDown n (2 ^ k) + 2 ^ k := by
  rcases Nat.le_total 64 k with hk | hk
  · exact Nat.le_trans (Nat.pow_le_pow_right (by decide) hk) (Nat.le_add_left _ _)
  · -- the words are a multiple themselves, and the one before it is at most `n`
    obtain ⟨q, hq⟩ : 2 ^ k ∣ wordCount := Nat.pow_dvd_pow 2 hk
    have hpos : 0 < 2 ^ k := Nat.pow_pos (by decide)
    have hbelow : (q - 1) * 2 ^ k ≤ n := by
      rw [Nat.sub_mul, Nat.mul_comm q, ← hq]
      omega
    have hmul := Nat.mul_le_mul_right (2 ^ k) ((Nat.le_div_iff_mul_le hpos).2 hbelow)
    rw [Nat.sub_mul, Nat.mul_comm q, ← hq] at hmul
    rw [roundDown_eq_div_mul]
    omega

end VerifiableDelay
