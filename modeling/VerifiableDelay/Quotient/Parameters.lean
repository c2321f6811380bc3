/-!
# The shape of a quotient

A proof raises the start of a run to the quotient of `2 ^ T` by a prime. The
quotient is cut into digits of `width` bits, and the digits are dealt to
`columns` columns in turn; a checkpoint is then needed once per row, every
`stride` iterations. Wider digits and more columns save checkpoints and cost
the prover time.
-/

namespace VerifiableDelay

-- powers of natural numbers are those of the core library
attribute [local instance (high)] instPowNat

/-- How a quotient is cut into digits. -/
structure Parameters where
  /-- Bits of a digit. -/
  width : Nat
  /-- Digits of a row. -/
  columns : Nat
  width_pos : 0 < width := by decide
  columns_pos : 0 < columns := by decide
  deriving DecidableEq

namespace Parameters

/-- The nearest parameters there are: neither number can be zero. -/
def atLeastOne (width columns : Nat) : Parameters where
  width := max width 1
  columns := max columns 1
  width_pos := by omega
  columns_pos := by omega

/-- Iterations between two checkpoints. -/
def stride (p : Parameters) : Nat := p.width * p.columns

theorem stride_pos (p : Parameters) : 0 < p.stride := Nat.mul_pos p.width_pos p.columns_pos

/-- Rows of a quotient of `2 ^ iterations`. -/
def rows (p : Parameters) (iterations : Nat) : Nat := (iterations + p.stride - 1) / p.stride

/-- The length of run, as a logarithm, from which digits are dealt to more
than one column. -/
def memoryLog : Float := 23.25349666

/-- The number of columns that holds the checkpoints of `iterations`
squarings within memory. -/
def approximateColumns (iterations : Nat) : Nat :=
  if (UInt64.ofNat iterations).toFloat.log2 - memoryLog > 0.000001 then
    ((2.0 : Float).pow (memoryLog - 20.0)).ceil.toUInt32.toNat
  else 1

/-- The width at which filling the buckets of a column and emptying them
cost about the same: where `width * 2 ^ width` meets the share of the
iterations a column has. -/
def approximateWidth (iterations columns : Nat) : Nat :=
  let share := (UInt64.ofNat iterations).toFloat * 0.6931471 /
    (2.0 * (UInt64.ofNat columns).toFloat)
  let width := (share.log - share.log.log + 0.25).round
  -- no number at all for the shortest runs, which compares with nothing
  if width > 1.0 then width.toUInt32.toNat else 1

/-- **Parameters for a run** of the given length. The width comes out of floating
point numbers, of which nothing is proven here, so a bound of 63 is put on it.
The choice itself has no such bound and needs none: the most that a word of
iterations comes to is about forty. -/
def approximate (iterations : Nat) : Parameters :=
  let columns := approximateColumns iterations
  atLeastOne (min (approximateWidth iterations columns) 63) columns

/-- Parameters of a proof made beside its own run: short runs take digits of
ten bits. -/
def ofRun (iterations : Nat) : Parameters :=
  if 65536 ≤ iterations then approximate iterations else ⟨10, 1, by decide, by decide⟩

/-- Parameters of the segments of a level. Four segments of one level make
one of the next, on as many checkpoints as one of them. -/
def ofLevel : (level : Nat) → Parameters
  | 0 => ⟨10, 1, by decide, by decide⟩
  | level + 1 => ⟨12, 4 ^ level, by decide, Nat.pow_pos (by decide)⟩

theorem approximate_width_le (iterations : Nat) : (approximate iterations).width ≤ 63 := by
  simp only [approximate, atLeastOne]
  omega

theorem ofRun_width_le (iterations : Nat) : (ofRun iterations).width ≤ 63 := by
  unfold ofRun
  split
  · exact approximate_width_le iterations
  · decide

theorem ofLevel_width_le (level : Nat) : (ofLevel level).width ≤ 63 := by
  cases level with
  | zero => decide
  | succ level => exact (by decide : 12 ≤ 63)

end Parameters

end VerifiableDelay
