import VerifiableDelay.Euclid.Bezout
import VerifiableDelay.Euclid.Partial
import VerifiableDelay.Form.Basic
/-!
# Composition

The group operation on classes. Below the fourth root of the discriminant
the composite is written out; above it the remainder sequence of the
leading coefficient is stopped half way, and a smaller form of the same
class is put together from what it has reached, so that the numbers stay at
the size of that root. Neither method gives a reduced form: `compose` and
`square` reduce what they give, and `pow` lets forms grow to the size of the
discriminant before it does.
-/

namespace VerifiableDelay

namespace Form

/-- A form with its two outer coefficients made to begin positive. -/
def withPositiveLeading (f : Form) : Form := if f.a < 0 then ⟨-f.a, f.b, -f.c⟩ else f

/-- The composite written out, from the leading coefficients `a₁` and `a₂`
freed of their common factor, the second form's `b` and its `c` times that
factor, and the multiplier `k`. -/
def composeDirect (a₁ a₂ b c k : Int) : Form :=
  let t := a₂ * k
  ⟨a₂ * a₁, 2 * t + b, ((b + t) * k + c).tdiv a₁⟩

/-- A form of the composite's class, from the same numbers and the half sum
`s` and half difference `m` of the middle coefficients, by way of the
remainders of `a₁` and `k` stopped at the bound. -/
def composePartial (d : Discriminant) (a₁ a₂ b c k s m : Int) : Form :=
  let x := partialGcd a₁ k d.bound
  let t := a₂ * x.lower
  let m₁ := (m * x.coLower + t).tdiv a₁
  let m₂ := (s * x.lower - c * x.coLower).tdiv a₁
  let lower := x.lower * m₁
  let upper := x.coLower * m₂
  let a := if x.coLower < 0 then lower - upper else upper - lower
  let b' := ((2 * (t - a * x.coUpper)).tdiv x.coLower - b).fmod (2 * a)
  withPositiveLeading ⟨a, b', (b' * b' - d.value).tdiv a / 4⟩

/-- Composes `f` and `g`, where `f.a` is not the larger leading
coefficient. -/
def composeOrdered (d : Discriminant) (f g : Form) : Form :=
  let s := (f.b + g.b) / 2
  let m := (f.b - g.b) / 2
  let t := g.a.fmod f.a
  let (common, v) := if t = 0 then (f.a, 0) else
    let e := Bezout.of t f.a
    (e.gcd, e.left)
  let k := (m * v).fmod f.a
  let (a₁, a₂, c, k) :=
    if common = 1 then (f.a, g.a, g.c, k)
    else
      let e := Bezout.of s common
      let k := k * e.right - e.left * g.c
      let a₁ := f.a.tdiv e.gcd
      (a₁, g.a.tdiv e.gcd, g.c * e.gcd, k.fmod a₁)
  if a₁ < d.bound then composeDirect a₁ a₂ g.b c k
  else composePartial d a₁ a₂ g.b c k s m

/-- **The composite** of two forms, not reduced. -/
def composite (d : Discriminant) (f g : Form) : Form :=
  if g.a < f.a then composeOrdered d g f else composeOrdered d f g

/-- A form of the square's class, from the leading coefficient `a₁` freed of
its common factor with `b`, the `c` times that factor, and the multiplier
`k`, by way of the remainders of `a₁` and `k` stopped at the bound. -/
def duplicatePartial (d : Discriminant) (a₁ b c k : Int) : Form :=
  let x := partialGcd a₁ k d.bound
  let m := (b * x.lower - c * x.coLower).tdiv a₁
  let difference := x.lower * x.lower - x.coLower * m
  let a := if x.coLower < 0 then difference else -difference
  let b' := ((2 * (a₁ * x.lower - a * x.coUpper)).tdiv x.coLower - b).fmod (2 * a)
  withPositiveLeading ⟨a, b', (b' * b' - d.value).tdiv (4 * a)⟩

/-- **The composite** of a form with itself, not reduced. -/
def duplicate (d : Discriminant) (f : Form) : Form :=
  let e := Bezout.of f.b.natAbs f.a
  let v := if f.b < 0 then -e.left else e.left
  let a₁ := if e.gcd = 1 then f.a else f.a.fdiv e.gcd
  let c := if e.gcd = 1 then f.c else f.c * e.gcd
  let k := (-(v * f.c)).fmod a₁
  if a₁ < d.bound then
    let t := a₁ * k
    ⟨a₁ * a₁, 2 * t + f.b, ((f.b + t) * k + c).fdiv a₁⟩
  else duplicatePartial d a₁ f.b c k

/-- The group operation on reduced forms. -/
def compose (d : Discriminant) (f g : Form) : Form := (composite d f g).reduced

/-- The reduced square. -/
def square (d : Discriminant) (f : Form) : Form := (duplicate d f).reduced

/-- Squares `n` times; zero times gives `f` itself, reduced or not. -/
def squareTimes (d : Discriminant) : (n : Nat) → Form → Form
  | 0, f => f
  | n + 1, f => squareTimes d n (square d f)

/-- Reduces a form that has outgrown the discriminant. -/
def trim (d : Discriminant) (f : Form) : Form :=
  if d.bits < bitLength f.a.natAbs then f.reduced else f

/-- Multiplies `acc` by the power of `base` to `e`, squaring `base` along
the bits of `e`. -/
def powFrom (d : Discriminant) (acc base : Form) (e : Nat) : Form :=
  if e = 0 then acc
  else
    let acc := if e % 2 = 1 then trim d (composite d acc base) else acc
    if e / 2 = 0 then acc else powFrom d acc (trim d (duplicate d base)) (e / 2)
termination_by e

/-- **The reduced power** of `f` to `e`. -/
def pow (d : Discriminant) (f : Form) (e : Nat) : Form := (powFrom d (identity d) f e).reduced

end Form

end VerifiableDelay
