import VerifiableDelay.Bytes.Counter
import VerifiableDelay.Bytes.Sha256
import VerifiableDelay.Form.Error
import VerifiableDelay.Prime.Test
/-!
# Hashing to a prime

A nonce is stepped before every digest, and digests are strung together to
the width of a candidate. With the forced bits set, the first candidate
that passes the primality test is the answer. A nonce of `n` bytes has
`256 ^ n` values and each nonce determines all that follow it, so a search
through that many candidates has seen every one there is.
-/

namespace VerifiableDelay

-- powers of natural numbers are those of the core library
attribute [local instance (high)] instPowNat

namespace PrimeSearch

/-- Steps the nonce and hashes it until `width` bytes are filled. What is
beyond them of the last digest is dropped. -/
def fill (step : List UInt8 → List UInt8) (width : Nat) (nonce : List UInt8) :
    List UInt8 × List UInt8 :=
  if width = 0 then ([], nonce)
  else
    let nonce := step nonce
    let (rest, last) := fill step (width - 32) nonce
    ((Sha256.digest nonce).take width ++ rest, last)
termination_by width

/-- Sets every listed bit. -/
def force (bits : List Nat) (n : Nat) : Nat := bits.foldl (fun n bit => n ||| 1 <<< bit) n

/-- Looks at `count` candidates of `width` bytes. -/
def searchFrom (step : List UInt8 → List UInt8) (width : Nat) (forced : List Nat) :
    (count : Nat) → (nonce : List UInt8) → Option Nat
  | 0, _ => none
  | count + 1, nonce =>
    let (bytes, nonce) := fill step width nonce
    let candidate := force forced (Bytes.ofBigEndian bytes)
    if isProbablePrime candidate then some candidate
    else searchFrom step width forced count nonce

/-- **The first prime** of `length` bits among the candidates a seed
expands to, with the forced bits set. -/
def run (step : List UInt8 → List UInt8) (seed : List UInt8) (length : Nat)
    (forced : List Nat) : Except FormError Nat :=
  if length = 0 ∨ length % 8 ≠ 0 then .error (.primeParameters .length)
  else if seed.isEmpty then .error (.primeParameters .emptySeed)
  else if forced.any (length ≤ ·) then .error (.primeParameters .forcedBit)
  else
    match searchFrom step (length / 8) forced (256 ^ seed.length) seed with
    | some p => .ok p
    | none => .error .noPrime

end PrimeSearch

/-- The prime a challenge is: its nonces ripple. -/
def hashToPrime : (seed : List UInt8) → (length : Nat) → (forced : List Nat) →
    Except FormError Nat := PrimeSearch.run Bytes.ripple

/-- The prime a discriminant is: its nonces count. -/
def countToPrime : (seed : List UInt8) → (length : Nat) → (forced : List Nat) →
    Except FormError Nat := PrimeSearch.run Bytes.increment

end VerifiableDelay
