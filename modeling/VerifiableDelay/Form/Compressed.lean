import VerifiableDelay.Euclid.Bezout
import VerifiableDelay.Euclid.Partial
import VerifiableDelay.Form.Error
/-!
# Compressed forms

The middle coefficient of a reduced form is known from the leading one and
a cofactor of half its size. Running the remainder sequence of `a` and `|b|`
down to the root of `a` gives a `t` with `b * t` congruent to a small
remainder, and that remainder is a square root of `D * t ^ 2` modulo `a`.
Where `t` shares a factor with `a` the root is one modulo the cofactor only,
and the quotient of `b` by it is kept as well.
-/

namespace VerifiableDelay

/-- What a form is compressed to. A zero `t` stands for `b = a`. -/
structure Compressed where
  /-- The leading coefficient without the factor `g`. -/
  a : Int
  /-- The cofactor, without the factor `g`. -/
  t : Int
  /-- The common factor of the leading coefficient and the cofactor. -/
  g : Int
  /-- The magnitude of the quotient of `b` by `a`, where `g` is not one. -/
  b₀ : Int
  /-- Whether the middle coefficient is negative. -/
  negative : Bool
  deriving Repr, DecidableEq

namespace Compressed

/-- The compressed representation of the coefficients `a` and `b`. It asks
for a positive `a`, except where the two are equal. -/
def of? (a b : Int) : Option Compressed :=
  if a = b then some ⟨a, 0, 0, 0, false⟩
  else if a ≤ 0 then none
  else
    let t := -(partialGcd a b.natAbs (floorSqrt a.natAbs)).coLower
    let g : Int := Int.gcd a t
    if g = 1 then some ⟨a, t, 1, 0, b < 0⟩
    else
      let quotient := b.tdiv (a.tdiv g)
      some ⟨a.tdiv g, t.tdiv g, g, if b < 0 then -quotient else quotient, b < 0⟩

/-- **The coefficients** `a` and `b` a representation stands for, under the
discriminant `d`. -/
def expand (d : Int) (c : Compressed) : Except FormError (Int × Int) :=
  if c.a ≤ 0 then .error (.encoding .leadingNotPositive)
  else if c.t = 0 then .ok (c.a, c.a)
  else
    let e := Bezout.of (if c.t < 0 then c.t + c.a else c.t) c.a
    if e.gcd ≠ 1 then .error (.encoding .notInvertible)
    else
      let square := c.t * c.t % c.a * (d % c.a) % c.a
      let root : Int := floorSqrt square.natAbs
      if root * root ≠ square then .error (.encoding .notSquare)
      else
        let b := root * (e.left % c.a) % c.a
        let b := if 0 < c.b₀ then b + c.a * c.b₀ else b
        .ok (if 1 < c.g then c.a * c.g else c.a, if c.negative then -b else b)

end Compressed

end VerifiableDelay
