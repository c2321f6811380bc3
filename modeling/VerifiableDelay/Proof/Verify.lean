import VerifiableDelay.Challenge
import VerifiableDelay.Form.Compose
import VerifiableDelay.Prime.Residue
import VerifiableDelay.Proof.Chain
/-!
# Verification

A proof of `T` squarings from `x` to `y` is accepted if, raised to the
challenge, it makes up for the squarings that the remainder of `2 ^ T`
leaves of `x`. For a chain every segment is checked on its own, each from
where the one before it ended, and the last for what the others leave of the
claimed length. Bytes that encode no proof are an error; a proof that is
wrong is only refused.
-/

namespace VerifiableDelay

namespace Verify

/-- Where a proof leads from `x`: `proof` to the challenge times `x` to the
remainder of `2 ^ iterations`. -/
def target (d : Discriminant) (x proof : Form) (challenge iterations : Nat) : Form :=
  Form.compose d (proof.pow d challenge) (x.pow d (powMod challenge 2 iterations))

/-- **Whether a proof shows** that `iterations` squarings lead from `x` to
`y`. -/
def segment (d : Discriminant) (x y proof : Form) (iterations : Nat) : Except FormError Bool := do
  let challenge ← Challenge.prime d x y
  return target d x proof challenge iterations == y.reduced

/-- The form that a proof leads to under a challenge, if that is the
challenge for it. -/
def recover (d : Discriminant) (x proof : Form) (challenge iterations : Nat) :
    Except FormError (Option Form) :=
  if bitLength challenge ≠ Challenge.bits then .ok none
  else do
    let y := target d x proof challenge iterations
    return if (← Challenge.prime d x y) = challenge then some y else none

/-- Checks the links of a chain from `x` on. What is left is where the last
segment starts and its length. -/
def links (d : Discriminant) : Form → List Link → (iterations : Nat) →
    Except FormError (Option (Form × Nat))
  | x, [], iterations => .ok (some (x, iterations))
  | x, l :: rest, iterations =>
    if iterations < l.length then .ok none
    else do
      if ← segment d x l.y l.proof l.length then links d l.y rest (iterations - l.length)
      else return none

/-- **Whether a chain shows** `iterations` squarings of an encoded form. -/
def chain (d : Discriminant) (x bytes : List UInt8) (iterations depth : Nat) :
    Except FormError Bool := do
  let x ← Form.decode d x
  let c ← Chain.decode d bytes depth
  match ← links d x c.links iterations with
  | some (x, left) => segment d x c.y c.proof left
  | none => return false

/-- **The encoded form** that a body shows `iterations` squarings of an
encoded form to lead to, if it does and `challenge` is that of its last
segment. -/
def body (d : Discriminant) (challenge : Nat) (x bytes : List UInt8) (iterations depth : Nat) :
    Except FormError (Option (List UInt8)) := do
  let x ← Form.decode d x
  let b ← Chain.decodeBody d bytes depth
  match ← links d x b.links iterations with
  | some (x, left) =>
    match ← recover d x b.proof challenge left with
    | some y => return some (← y.encode d)
    | none => return none
  | none => return none

/-- Where the last segment of a chain starts, its other segments taken on
trust. -/
def lastStart : Form → List Link → (iterations : Nat) → Option Form
  | x, [], _ => some x
  | _, l :: rest, iterations =>
    if iterations < l.length then none else lastStart l.y rest (iterations - l.length)

/-- **The challenge** of the last segment of a chain. -/
def challenge (d : Discriminant) (x bytes : List UInt8) (iterations depth : Nat) :
    Except DelayError Nat := do
  let x ← ofFormResult (Form.decode d x)
  let c ← ofFormResult (Chain.decode d bytes depth)
  match lastStart x c.links iterations with
  | some x => ofFormResult (Challenge.prime d x c.y)
  | none => .error .chainTooLong

end Verify

end VerifiableDelay
