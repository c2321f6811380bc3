/-!
# Bytes — integers in a fixed number of bytes

A natural number is written in base 256, least significant byte first. Two
formats are built on that: magnitudes padded to a width and refused when
they do not fit, and the two's complement of a signed integer, most
significant byte first, which drops the digits above its width.
-/

namespace VerifiableDelay

-- powers of natural numbers are those of the core library
attribute [local instance (high)] instPowNat

namespace Bytes

/-- The `width` low base-256 digits of `n`, least significant first. -/
def toLittleEndian : (width n : Nat) → List UInt8
  | 0, _ => []
  | width + 1, n => UInt8.ofNat n :: toLittleEndian width (n / 256)

/-- The number whose base-256 digits are given, least significant first. -/
def ofLittleEndian : List UInt8 → Nat
  | [] => 0
  | b :: rest => b.toNat + 256 * ofLittleEndian rest

/-- The `width` low base-256 digits of `n`, most significant first. -/
def toBigEndian (width n : Nat) : List UInt8 := (toLittleEndian width n).reverse

/-- The number whose base-256 digits are given, most significant first. -/
def ofBigEndian (bytes : List UInt8) : Nat := ofLittleEndian bytes.reverse

/-- A number in exactly `width` bytes, least significant first; `none` when
it needs more. -/
def padded? (width n : Nat) : Option (List UInt8) :=
  if n < 256 ^ width then some (toLittleEndian width n) else none

/-- **Two's complement**, most significant byte first. A negative number is
the bytewise complement of the number it is one's complement of. -/
def toTwosComplement (width : Nat) : Int → List UInt8
  | .ofNat n => toBigEndian width n
  | .negSucc n => (toBigEndian width n).map (~~~ ·)

/-- Reads two's complement: a set top bit makes the value that of the
digits less `256` to the number of bytes. No bytes read as zero. -/
def ofTwosComplement (bytes : List UInt8) : Int :=
  match bytes with
  | [] => 0
  | b :: _ =>
    if b.toNat < 128 then ofBigEndian bytes
    else (ofBigEndian bytes : Int) - (256 ^ bytes.length : Nat)

@[simp] theorem length_toLittleEndian (width n : Nat) :
    (toLittleEndian width n).length = width := by
  induction width generalizing n with
  | zero => rfl
  | succ width ih => simp [toLittleEndian, ih]

@[simp] theorem length_toBigEndian (width n : Nat) : (toBigEndian width n).length = width := by
  simp [toBigEndian]

@[simp] theorem length_toTwosComplement (width : Nat) (x : Int) :
    (toTwosComplement width x).length = width := by
  cases x <;> simp [toTwosComplement]

/-- Reading back what was written keeps the digits the width holds. -/
theorem ofLittleEndian_toLittleEndian (width n : Nat) :
    ofLittleEndian (toLittleEndian width n) = n % 256 ^ width := by
  induction width generalizing n with
  | zero => simp [toLittleEndian, ofLittleEndian, Nat.mod_one]
  | succ width ih =>
    have hb : (UInt8.ofNat n).toNat = n % 256 := by simp
    rw [toLittleEndian, ofLittleEndian, ih, hb, Nat.pow_succ, Nat.mul_comm (256 ^ width) 256,
      Nat.mod_mul]

/-- As many digits as there are bytes bound the number. -/
theorem ofLittleEndian_lt (bytes : List UInt8) : ofLittleEndian bytes < 256 ^ bytes.length := by
  induction bytes with
  | nil => simp [ofLittleEndian]
  | cons b rest ih =>
    have hb := b.toNat_lt
    rw [ofLittleEndian, List.length_cons, Nat.pow_succ]
    omega

theorem ofBigEndian_lt (bytes : List UInt8) : ofBigEndian bytes < 256 ^ bytes.length := by
  have h := ofLittleEndian_lt bytes.reverse
  rwa [List.length_reverse] at h

/-- Reading back keeps the same digits from the other end. -/
theorem ofBigEndian_toBigEndian (width n : Nat) :
    ofBigEndian (toBigEndian width n) = n % 256 ^ width := by
  rw [ofBigEndian, toBigEndian, List.reverse_reverse, ofLittleEndian_toLittleEndian]

/-- Writing again what was read gives the bytes back. -/
theorem toLittleEndian_ofLittleEndian (bytes : List UInt8) :
    toLittleEndian bytes.length (ofLittleEndian bytes) = bytes := by
  induction bytes with
  | nil => rfl
  | cons b rest ih =>
    have hb := b.toNat_lt
    have hlow : UInt8.ofNat (b.toNat + 256 * ofLittleEndian rest) = b := by
      apply UInt8.toNat_inj.1
      rw [UInt8.toNat_ofNat']
      omega
    have hhigh : (b.toNat + 256 * ofLittleEndian rest) / 256 = ofLittleEndian rest := by omega
    rw [ofLittleEndian, List.length_cons, toLittleEndian, hlow, hhigh, ih]

/-- And so it does from the other end. -/
theorem toBigEndian_ofBigEndian (bytes : List UInt8) :
    toBigEndian bytes.length (ofBigEndian bytes) = bytes := by
  rw [toBigEndian, ofBigEndian, ← List.length_reverse, toLittleEndian_ofLittleEndian,
    List.reverse_reverse]

end Bytes

end VerifiableDelay
