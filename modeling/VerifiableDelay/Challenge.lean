import VerifiableDelay.Form.Basic
import VerifiableDelay.Bytes.Fixed
/-!
# The challenge

The prime a proof is made for is hashed from the two forms it speaks of, so
that neither can be chosen after it. Both enter as the leading coefficients
of their reduced forms, at a width that follows from the discriminant.
-/

namespace VerifiableDelay

namespace Challenge

/-- Bits of the prime. -/
def bits : Nat := 264

/-- Bytes of a coefficient: a reduced form's leading ones are at most half
as long as the discriminant, and take a sign. -/
def coefficientWidth (d : Discriminant) : Nat := (d.bits + 16) / 16

/-- The leading coefficients of the reduced form, each in `width` bytes. -/
def transcript (width : Nat) (f : Form) : List UInt8 :=
  let f := if f.isReduced then f else f.reduced
  Bytes.toTwosComplement width f.a ++ Bytes.toTwosComplement width f.b

/-- What is hashed for the statement that leads from `x` to `y`. -/
def seed (d : Discriminant) (x y : Form) : List UInt8 :=
  transcript (coefficientWidth d) x ++ transcript (coefficientWidth d) y

/-- **The challenge** for the statement that leads from `x` to `y`, a prime
of exactly 264 bits. -/
def prime (d : Discriminant) (x y : Form) : Except FormError Nat :=
  hashToPrime (seed d x y) bits [bits - 1]

theorem length_transcript (width : Nat) (f : Form) :
    (transcript width f).length = 2 * width := by
  simp [transcript]
  omega

end Challenge

end VerifiableDelay
