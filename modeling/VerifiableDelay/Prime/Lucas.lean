import VerifiableDelay.Prime.Residue
/-!
# Lucas sequences — the strong test with Selfridge's parameters

With `P = 1` and `Q = (1 - d) / 4`, the sequences `U` and `V` are computed
modulo `n` by doubling and increment along the bits of the index, a power
of `Q` beside them. The parameter `d` is the first of `5, -7, 9, …` over
which `n` has the symbol `-1`; a number that is no square has one below
`2 * n` in magnitude, so the search looks no further.
-/

namespace VerifiableDelay

namespace Lucas

/-- How the search for the parameter ends. -/
inductive Search where
  /-- The symbol is `-1` at this candidate. -/
  | parameter (d : Int)
  /-- A candidate shares a proper factor with the number. -/
  | factor
  /-- Neither came up among the candidates looked at. -/
  | exhausted
  deriving Repr, DecidableEq

/-- The next of `5, -7, 9, -11, …`. -/
def nextCandidate (d : Int) : Int := if 0 < d then -(d + 2) else 2 - d

/-- Looks at `count` candidates from `d` on. -/
def searchFrom (n : Nat) : (count : Nat) → (d : Int) → Search
  | 0, _ => .exhausted
  | count + 1, d =>
    let symbol := jacobi d n
    if symbol = -1 then .parameter d
    else if symbol = 0 ∧ d.natAbs ≠ n then .factor
    else searchFrom n count (nextCandidate d)

/-- **The parameter of `n`**, among the candidates below `2 * n` in
magnitude. -/
def search (n : Nat) : Search := searchFrom n (n - 2) 5

/-- `U k`, `V k` and `Q ^ k`, modulo a number. -/
structure Term where
  u : Int
  v : Int
  q : Int
  deriving Repr, DecidableEq

/-- Half of a residue modulo an odd `n`. -/
def half (n x : Int) : Int := if x % 2 = 0 then x / 2 else (x + n) / 2

/-- From the index `k` to `2 * k`. -/
def Term.double (n : Int) (t : Term) : Term :=
  { u := t.u * t.v % n, v := (t.v * t.v - t.q - t.q) % n, q := t.q * t.q % n }

/-- From the index `k` to `k + 1`, for the parameters `d` and `q`. -/
def Term.succ (n d q : Int) (t : Term) : Term :=
  { u := half n ((t.u + t.v) % n), v := half n ((d * t.u + t.v) % n), q := t.q * q % n }

/-- The term of index `k`, for `k` at least one. -/
def term (n d q : Int) (k : Nat) : Term :=
  if k ≤ 1 then { u := 1, v := 1, q := q % n }
  else
    let doubled := (term n d q (k / 2)).double n
    if k % 2 = 0 then doubled else doubled.succ n d q
termination_by k

/-- Doubles the index `count` times, noting whether `V` vanished before the
last of them. -/
def doublings (n : Int) : (count : Nat) → (vanished : Bool) → Term → Bool × Term
  | 0, vanished, t => (vanished, t)
  | count + 1, vanished, t => doublings n count (vanished || t.v == 0) (t.double n)

/-- The strong test with the parameter `d`. With `n + 1 = m * 2 ^ s` and `m` odd:
`U` at `m`, or `V` at `m * 2 ^ r` for an `r` below `s`, is zero, and `V` at
`n + 1` is twice `Q`. -/
def passesWith (n : Nat) (d : Int) : Bool :=
  let q := (1 - d) / 4
  let (s, m) := splitTwos (n + 1)
  let first := term n d q m
  let (vanished, last) := doublings n s (first.u == 0 || first.v == 0) first
  vanished && last.v == (q + q) % n

/-- **The strong Lucas test**, with the parameter of `n`. -/
def passes (n : Nat) : Bool :=
  match search n with
  | .parameter d => passesWith n d
  | _ => false

end Lucas

end VerifiableDelay
