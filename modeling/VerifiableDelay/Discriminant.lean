import VerifiableDelay.Prime.Search
/-!
# Discriminants

A class group is named by a negative integer that is `1` modulo `8`. Its
size and the bound at which composition changes its method are kept with
it.
-/

namespace VerifiableDelay

/-- A negative discriminant `1` modulo `8`, so that both `(1, 1)` and
`(2, 1)` begin a form of it. -/
structure Discriminant where
  value : Int
  /-- Length of the magnitude in bits. -/
  bits : Nat := bitLength value.natAbs
  /-- Floor of the fourth root of the magnitude. -/
  bound : Nat := floorFourthRoot value.natAbs
  value_neg : value < 0
  value_mod : value % 8 = 1
  bits_eq : bits = bitLength value.natAbs := by rfl
  bound_eq : bound = floorFourthRoot value.natAbs := by rfl
  deriving DecidableEq

namespace Discriminant

/-- Largest discriminant, in bits, that forms are encoded for. -/
def maxBits : Nat := 1024

/-- Takes an integer as a discriminant. -/
def ofInt (value : Int) : Except FormError Discriminant :=
  if hneg : value < 0 then
    if hmod : value % 8 = 1 then .ok { value, value_neg := hneg, value_mod := hmod }
    else .error (.discriminant .residue)
  else .error (.discriminant .notNegative)

/-- **The discriminant of a seed**: minus the prime of `bits` bits that the
seed counts to, with the top bit and the three low ones set. Its size is a
multiple of a digest. -/
def ofSeed (seed : List UInt8) (bits : Nat) : Except FormError Discriminant :=
  if bits = 0 ∨ bits % 256 ≠ 0 then .error (.discriminant .size)
  else do
    let p ← countToPrime seed bits [0, 1, 2, bits - 1]
    ofInt (-p)

end Discriminant

end VerifiableDelay
