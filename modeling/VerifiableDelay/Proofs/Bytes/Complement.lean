import VerifiableDelay.Bytes.Fixed
import Mathlib.Data.Nat.Digits.Defs
import Mathlib.Tactic.Ring
/-!
# Two's complement

What is written of an integer at a width is what it leaves modulo the number
of values the width has, and what is read of bytes is the representative of
that residue around zero. So **an integer is read back as the
representative of its residue** (`ofTwosComplement_toTwosComplement`), and as
itself just where the width has room for it and its sign; and bytes are written
back as they were (`toTwosComplement_ofTwosComplement`).
-/

namespace VerifiableDelay

-- powers of natural numbers are those of the core library
attribute [local instance (high)] instPowNat

namespace Bytes

variable {width : Nat}

/-- The digits of one list come below those of what follows it. -/
theorem ofLittleEndian_append (low high : List UInt8) :
    ofLittleEndian (low ++ high) =
      ofLittleEndian low + 256 ^ low.length * ofLittleEndian high := by
  induction low with
  | nil => simp [ofLittleEndian]
  | cons b low ih =>
    rw [List.cons_append, ofLittleEndian, ofLittleEndian, ih, List.length_cons, Nat.pow_succ]
    ring

/-- The first byte is the one above the others. -/
theorem ofBigEndian_cons (b : UInt8) (rest : List UInt8) :
    ofBigEndian (b :: rest) = ofBigEndian rest + 256 ^ rest.length * b.toNat := by
  simp [ofBigEndian, ofLittleEndian_append, ofLittleEndian]

/-- Complementing the bytes complements the number. -/
theorem ofLittleEndian_map_not (bytes : List UInt8) :
    ofLittleEndian (bytes.map (~~~ ·)) + ofLittleEndian bytes + 1 = 256 ^ bytes.length := by
  induction bytes with
  | nil => rfl
  | cons b rest ih =>
    have hb := b.toNat_lt
    have hnot : (~~~ b).toNat = 255 - b.toNat := by
      rw [UInt8.toNat_not]
      rfl
    rw [List.map_cons, ofLittleEndian, ofLittleEndian, List.length_cons, Nat.pow_succ, hnot]
    omega

/-- So it does with the most significant byte first. -/
theorem ofBigEndian_map_not (bytes : List UInt8) :
    ofBigEndian (bytes.map (~~~ ·)) + ofBigEndian bytes + 1 = 256 ^ bytes.length := by
  have h := ofLittleEndian_map_not bytes.reverse
  rwa [List.map_reverse, List.length_reverse] at h

/-- **What is written is the residue** modulo the number of values of the
width. -/
theorem ofBigEndian_toTwosComplement (width : Nat) (x : Int) :
    (ofBigEndian (toTwosComplement width x) : Int) = x % (256 ^ width : Nat) := by
  cases x with
  | ofNat n =>
    rw [toTwosComplement, ofBigEndian_toBigEndian]
    rfl
  | negSucc n =>
    have hnot := ofBigEndian_map_not (toBigEndian width n)
    rw [ofBigEndian_toBigEndian, length_toBigEndian] at hnot
    rw [toTwosComplement, Int.negSucc_emod _ (by exact_mod_cast Nat.pow_pos (by decide))]
    omega

/-- **What is read is the representative around zero** of the number that the
bytes write. -/
theorem ofTwosComplement_eq_bmod (bytes : List UInt8) :
    ofTwosComplement bytes = (ofBigEndian bytes : Int).bmod (256 ^ bytes.length) := by
  cases bytes with
  | nil => rfl
  | cons b rest =>
    have hlt : ofBigEndian (b :: rest) < 256 ^ (b :: rest).length := ofBigEndian_lt _
    have hrest := ofBigEndian_lt rest
    have hmod : (ofBigEndian (b :: rest) : Int) % (256 ^ (b :: rest).length : Nat) =
        ofBigEndian (b :: rest) := Int.emod_eq_of_lt (by omega) (by exact_mod_cast hlt)
    rw [Int.bmod_def, hmod, ofTwosComplement]
    rw [ofBigEndian_cons, List.length_cons, Nat.pow_succ] at *
    generalize 256 ^ rest.length = p at *
    -- the top bit is set just if the number is in the upper half
    by_cases hb : b.toNat < 128
    · have := Nat.mul_le_mul_left p (show b.toNat ≤ 127 by omega)
      rw [if_pos hb, if_pos (by omega)]
    · have := Nat.mul_le_mul_left p (show 128 ≤ b.toNat by omega)
      rw [if_neg hb, if_neg (by omega)]

/-- **An integer is read back as the representative of its residue** around
zero. -/
theorem ofTwosComplement_toTwosComplement (width : Nat) (x : Int) :
    ofTwosComplement (toTwosComplement width x) = x.bmod (256 ^ width) := by
  rw [ofTwosComplement_eq_bmod, ofBigEndian_toTwosComplement, length_toTwosComplement,
    Int.emod_bmod]

/-- The number of values of a width, in bits. -/
theorem pow_width (width : Nat) : 256 ^ width = 2 ^ (8 * width) := by
  rw [Nat.pow_mul]

/-- Half of them are not negative. -/
theorem pow_width_eq (hwidth : 0 < width) : 256 ^ width = 2 * 2 ^ (8 * width - 1) := by
  rw [pow_width, ← Nat.pow_succ']
  congr 1
  omega

/-- An integer that fits a width with its sign. -/
def InRange (width : Nat) (x : Int) : Prop :=
  -2 ^ (8 * width - 1) ≤ x ∧ x < 2 ^ (8 * width - 1)

/-- The bounds are natural numbers with a sign. -/
theorem inRange_iff {x : Int} :
    InRange width x ↔ -(2 ^ (8 * width - 1) : Nat) ≤ x ∧ x < (2 ^ (8 * width - 1) : Nat) := by
  rw [InRange]
  push_cast
  rfl

/-- **What fits is read back as it was.** -/
theorem InRange.read {x : Int} (h : InRange width x) (hwidth : 0 < width) :
    ofTwosComplement (toTwosComplement width x) = x := by
  obtain ⟨hle, hlt⟩ := inRange_iff.1 h
  rw [ofTwosComplement_toTwosComplement, pow_width_eq hwidth]
  generalize 2 ^ (8 * width - 1) = half at *
  exact Int.bmod_eq_of_le (by omega) (by omega)

/-- **And nothing else is**, for what is read of so many bytes fits them. -/
theorem inRange_of_read {x : Int} (hwidth : 0 < width)
    (h : ofTwosComplement (toTwosComplement width x) = x) : InRange width x := by
  have hpos : 0 < 2 ^ (8 * width - 1) := Nat.pow_pos (by decide)
  rw [ofTwosComplement_toTwosComplement, pow_width_eq hwidth] at h
  rw [inRange_iff, ← h]
  generalize 2 ^ (8 * width - 1) = half at *
  have hle := Int.le_bmod (x := x) (m := 2 * half) (by omega)
  have hlt := Int.bmod_lt (x := x) (m := 2 * half) (by omega)
  omega

/-! ## Bytes and the numbers they write -/

/-- So many bytes are known by the number they write. -/
theorem eq_of_ofBigEndian_eq {bytes bytes' : List UInt8} (hlen : bytes.length = bytes'.length)
    (h : ofBigEndian bytes = ofBigEndian bytes') : bytes = bytes' := by
  rw [← toBigEndian_ofBigEndian bytes, h, hlen, toBigEndian_ofBigEndian]

/-- The number is the value of the digits, the last of them the lowest. -/
theorem ofBigEndian_eq_ofDigits (bytes : List UInt8) :
    ofBigEndian bytes = Nat.ofDigits 256 (bytes.reverse.map UInt8.toNat) := by
  rw [ofBigEndian]
  induction bytes.reverse with
  | nil => rfl
  | cons b rest ih => rw [ofLittleEndian, ih, List.map_cons, Nat.ofDigits_cons]

/-- **What was read is written as it was.** -/
theorem toTwosComplement_ofTwosComplement (bytes : List UInt8) :
    toTwosComplement bytes.length (ofTwosComplement bytes) = bytes := by
  have hlt := ofBigEndian_lt bytes
  apply eq_of_ofBigEndian_eq (length_toTwosComplement _ _)
  apply Int.ofNat_inj.1
  calc (ofBigEndian (toTwosComplement bytes.length (ofTwosComplement bytes)) : Int)
      = ofTwosComplement bytes % (256 ^ bytes.length : Nat) := ofBigEndian_toTwosComplement _ _
    _ = (ofBigEndian bytes : Int) % (256 ^ bytes.length : Nat) := by
        rw [ofTwosComplement_eq_bmod, Int.bmod_emod]
    _ = ofBigEndian bytes := Int.emod_eq_of_lt (Int.natCast_nonneg _) (by exact_mod_cast hlt)

/-- **Two's complement at a width** is the expansion in base 256, on exactly so
many bytes and with the most significant first, of what the integer leaves modulo
`2 ^ (8 * width)`. So it is undone exactly for the integers that a signed number of
so many bytes can be; and whatever bytes are read, they are what is written again. -/
theorem twos_complement_is_expansion (width : Nat) (x : Int) (bytes : List UInt8) :
    (bytes = toTwosComplement width x ↔
      bytes.length = width ∧
        ((Nat.ofDigits 256 (bytes.reverse.map UInt8.toNat) : Nat) : Int) = x % 2 ^ (8 * width)) ∧
    (0 < width →
      (ofTwosComplement (toTwosComplement width x) = x ↔
        -2 ^ (8 * width - 1) ≤ x ∧ x < 2 ^ (8 * width - 1))) ∧
    toTwosComplement bytes.length (ofTwosComplement bytes) = bytes := by
  refine ⟨?_, fun hwidth => ⟨inRange_of_read hwidth, fun h => InRange.read h hwidth⟩,
    toTwosComplement_ofTwosComplement bytes⟩
  have hwritten : (ofBigEndian (toTwosComplement width x) : Int) = x % 2 ^ (8 * width) := by
    rw [ofBigEndian_toTwosComplement, pow_width, Int.natCast_pow]
    rfl
  rw [← ofBigEndian_eq_ofDigits, ← hwritten]
  constructor
  · rintro rfl
    exact ⟨length_toTwosComplement width x, rfl⟩
  · rintro ⟨hlen, heq⟩
    refine eq_of_ofBigEndian_eq ?_ (Int.ofNat_inj.1 heq)
    rw [hlen, length_toTwosComplement]

/-- The least integer of two bytes, the one below it, and a power of the base. -/
theorem twos_complement_is_expansion_two_bytes :
    toTwosComplement 2 (-32768) = [128, 0] ∧
    ofTwosComplement (toTwosComplement 2 (-32768)) = -32768 ∧
    ofTwosComplement (toTwosComplement 2 (-32769)) ≠ -32769 ∧
    toTwosComplement 2 (-256) = [255, 0] := by
  obtain ⟨hleast, hread, -⟩ := twos_complement_is_expansion 2 (-32768) [128, 0]
  obtain ⟨-, hbelow, -⟩ := twos_complement_is_expansion 2 (-32769) []
  obtain ⟨hpower, -⟩ := twos_complement_is_expansion 2 (-256) [255, 0]
  refine ⟨(hleast.2 (by decide)).symm, (hread (by decide)).2 (by decide), fun h => ?_,
    (hpower.2 (by decide)).symm⟩
  exact absurd ((hbelow (by decide)).1 h) (by decide)

end Bytes

end VerifiableDelay
