import VerifiableDelay.Integer.Size
import VerifiableDelay.Prime.Lucas
/-!
# The primality test

The conjunction of trial division by small primes, the strong test to base
two, and the strong Lucas test of `Lucas.passes`. Squares are turned away
before the last, whose search for a parameter they would not end.
-/

namespace VerifiableDelay

/-- The primes below 256. -/
def smallPrimes : List Nat :=
  [2, 3, 5, 7, 11, 13, 17, 19, 23, 29, 31, 37, 41, 43, 47, 53, 59, 61, 67, 71, 73, 79, 83, 89,
   97, 101, 103, 107, 109, 113, 127, 131, 137, 139, 149, 151, 157, 163, 167, 173, 179, 181, 191,
   193, 197, 199, 211, 223, 227, 229, 233, 239, 241, 251]

/-- Squares `x` at most `count` times: whether `n - 1` comes up before `1`
does. -/
def reachesMinusOne (n : Nat) : (count x : Nat) → Bool
  | 0, _ => false
  | count + 1, x =>
    let y := x * x % n
    if y = n - 1 then true
    else if y = 1 then false
    else reachesMinusOne n count y

/-- The strong test to base two. With `n - 1 = m * 2 ^ s` and `m` odd: the
power of two to `m` is one, or becomes `-1` within `s - 1` squarings. -/
def passesStrongTest (n : Nat) : Bool :=
  let (s, m) := splitTwos (n - 1)
  let x := powMod n 2 m
  x == 1 || x == n - 1 || reachesMinusOne n (s - 1) x

/-- The verdict of trial division, where there is one: small primes are
accepted, and proper multiples of them and numbers below two are not. -/
def trialDivision (n : Nat) : Option Bool :=
  if n < 2 then some false
  else (smallPrimes.find? fun p => n % p == 0).map (n == ·)

/-- **The primality test.** No prime fails it, and no composite is known
that passes. -/
def isProbablePrime (n : Nat) : Bool :=
  match trialDivision n with
  | some verdict => verdict
  | none => passesStrongTest n && !isPerfectSquare n && Lucas.passes n

end VerifiableDelay
