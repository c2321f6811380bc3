import VerifiableDelay.Integer.Size
import VerifiableDelay.Error
import VerifiableDelay.Euclid.Bezout
import VerifiableDelay.Prime.Residue
import VerifiableDelay.Quotient.Parameters
/-!
# The digits of a quotient

Digit `p` of the quotient of `2 ^ T` by `b`, counted from the low end, is
the quotient by `b` of `2 ^ k` times the remainder of `2 ^ (T - k * (p + 1))`.
The first way to find it takes that power afresh. The second goes up a
column: from a digit to the next of its column the exponent falls by the
stride, so the remainder is multiplied by the inverse of a fixed power of
two, where there is one.
-/

namespace VerifiableDelay

-- powers of natural numbers are those of the core library
attribute [local instance (high)] instPowNat

namespace Quotient

/-- The quotient by `modulus` of `remainder`, shifted by a digit, if it is a
digit and fits a word. -/
def digit? (modulus width remainder : Nat) : Option Nat :=
  let digit := remainder * 2 ^ width / modulus
  if digit < wordCount ∧ (64 ≤ width ∨ digit < 2 ^ width) then some digit else none

/-- **Digit `position`** of the quotient of `2 ^ iterations`, from nothing
before it. -/
def digitAt (modulus width iterations position : Nat) : Except DelayError Nat :=
  let used := (position + 1) * width
  if iterations < used then .error (.noDigit position)
  else if modulus = 0 then .error .zeroModulus
  else
    match digit? modulus width (powMod modulus 2 (iterations - used)) with
    | some digit => .ok digit
    | none => .error (.noDigit position)

/-- A walk up the columns of a quotient. -/
structure Walk where
  modulus : Nat
  parameters : Parameters
  iterations : Nat
  /-- The inverse of `2` to the stride, if there is one and if there is a
  digit at all. -/
  inverse : Option Nat
  /-- What the next digit is read from. -/
  remainder : Nat

namespace Walk

/-- The inverse of `n` among the remainders by `modulus`. -/
def inverseOf (modulus n : Nat) : Option Nat :=
  let e := Bezout.of n modulus
  if e.gcd = 1 then some (e.left.emod modulus).toNat else none

/-- A walk that has not begun. -/
def ofQuotient (modulus : Nat) (parameters : Parameters) (iterations : Nat) : Walk where
  modulus := modulus
  parameters := parameters
  iterations := iterations
  inverse :=
    if parameters.width ≤ iterations then
      inverseOf modulus (powMod modulus 2 parameters.stride)
    else none
  remainder := 0

/-- Goes to the foot of a column. -/
def startColumn (w : Walk) (column : Nat) : Walk :=
  let used := (column + 1) * w.parameters.width
  let remainder :=
    if w.inverse.isSome ∧ used ≤ w.iterations then powMod w.modulus 2 (w.iterations - used)
    else 0
  { w with remainder }

/-- The digit at `position`, whatever the walk has come to. -/
def afresh (w : Walk) (position : Nat) : Except DelayError Nat :=
  digitAt w.modulus w.parameters.width w.iterations position

/-- **The digit here**, which is the one at `position` if the steps since
the foot of the column lead there, and the walk one step up. -/
def next (w : Walk) (position : Nat) : Except DelayError Nat × Walk :=
  match w.inverse with
  | none => (w.afresh position, w)
  | some inverse =>
    let above := { w with remainder := w.remainder * inverse % w.modulus }
    match digit? w.modulus w.parameters.width w.remainder with
    | some digit => (.ok digit, above)
    | none => (w.afresh position, above)

end Walk

end Quotient

end VerifiableDelay
