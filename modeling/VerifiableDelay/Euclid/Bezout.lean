/-!
# Bézout — the greatest common divisor with canonical cofactors

Euclid's algorithm on two integers of any sign, with the cofactor of the
first carried along. What it leaves is brought to one representative: the
divisor is nonnegative and the first cofactor is the least in magnitude,
the positive one of two. So the answer depends on the quotients taken in no
way, and composition may rely on it.
-/

namespace VerifiableDelay

/-- `gcd = left * a + right * b`, for the `a` and `b` it was computed of. -/
structure Bezout where
  gcd : Int
  left : Int
  right : Int
  deriving Repr, DecidableEq

namespace Bezout

/-- Euclid's algorithm from two consecutive remainders and the cofactors of
the first argument in them. Division truncates, so a remainder is smaller
than its divisor in magnitude whatever the signs. -/
def euclid (r r' s s' : Int) : Int × Int :=
  if r' = 0 then (r, s)
  else euclid r' (r.tmod r') s' (s - r.tdiv r' * s')
termination_by r'.natAbs
decreasing_by
  rw [Int.natAbs_tmod]
  exact Nat.mod_lt _ (by omega)

/-- The residue of `s` that is least in magnitude, the positive one of two
that are equal in it. -/
def centered (s period : Int) : Int :=
  let r := s % period
  if period < 2 * r then r - period else r

/-- The greatest common divisor of `a` and `b` and its cofactors. Where `b`
is zero the first cofactor is the sign of `a`; elsewhere it is centered
modulo `b / gcd`, and the second is what is left to supply. -/
def of (a b : Int) : Bezout :=
  let (r, s) := euclid a b 1 0
  let (g, s) := if r < 0 then (-r, -s) else (r, s)
  if g = 0 then ⟨0, 0, 0⟩
  else if b = 0 then ⟨g, a.sign, 0⟩
  else
    let left := centered s (b.tdiv g).natAbs
    ⟨g, left, (g - a * left).tdiv b⟩

end Bezout

end VerifiableDelay
