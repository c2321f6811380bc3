/-!
# Residues — powers and the Jacobi symbol

The two computations modulo an odd number that the primality test is built
on, with the split of a number into a power of two and an odd part.
-/

namespace VerifiableDelay

/-- `b ^ e` modulo `n`, by squaring along the bits of `e`. -/
def powMod (n b e : Nat) : Nat :=
  if e = 0 then 1 % n
  else
    let root := powMod n b (e / 2)
    let square := root * root % n
    if e % 2 = 0 then square else square * b % n
termination_by e

/-- How often two divides `n`, and what remains then. Zero is its own odd
part. -/
def splitTwos (n : Nat) : Nat × Nat :=
  if n ≠ 0 ∧ n % 2 = 0 then
    let (twos, odd) := splitTwos (n / 2)
    (twos + 1, odd)
  else (0, n)
termination_by n

/-- The loop of the Jacobi symbol: twos are taken out of `a` by the rule
modulo eight, and two odd numbers change places by reciprocity. -/
def jacobiFrom (a n : Nat) (sign : Int) : Int :=
  if a = 0 then if n = 1 then sign else 0
  else if a % 2 = 0 then
    jacobiFrom (a / 2) n (if n % 8 = 3 ∨ n % 8 = 5 then -sign else sign)
  else
    jacobiFrom (n % a) a (if a % 4 = 3 ∧ n % 4 = 3 then -sign else sign)
termination_by a
decreasing_by
  · omega
  · exact Nat.mod_lt _ (by omega)

/-- The Jacobi symbol of `a` over an odd positive `n`. -/
def jacobi (a : Int) (n : Nat) : Int := jacobiFrom (a % n).toNat n 1

end VerifiableDelay
