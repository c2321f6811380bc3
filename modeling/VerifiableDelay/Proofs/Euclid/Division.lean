import VerifiableDelay.Euclid.Partial
import VerifiableDelay.Proofs.Euclid.Bezout
/-!
# Euclid's algorithms, by a division that is given

What a division gives where the divisor is zero, or where it leaves something
that was not meant to be left, is nothing that a result may rest on. Here the
two algorithms are written with their divisions left open. Any `Division` may
stand for them that is the plain one wherever that is defined and, where
nothing is meant to be left, leaves nothing; `Division.checked` is one that
refuses everything else. **They come to what they come to by plain division**
(`Bezout.ofWith_eq`, `partialGcdWith_eq`), so they never ask for what is
refused.
-/

namespace VerifiableDelay

/-- A quotient by `y`, and a remainder that brings a loop nearer its end. -/
abbrev IntStep (y : Int) : Type := { p : Int × Int // y ≠ 0 → p.2.natAbs < y.natAbs }

/-- A quotient of the words `x` and `y` that does. -/
abbrev WordStep (x y : Int64) : Type :=
  { q : Int64 // y ≠ 0 → (x - q * y).toInt.natAbs < y.toInt.natAbs }

/-- The quotient toward zero, and its remainder. -/
def IntStep.plain (x y : Int) : IntStep y where
  val := (x.tdiv y, x.tmod y)
  property h := by
    rw [Int.natAbs_tmod]
    exact Nat.mod_lt _ (Int.natAbs_pos.2 h)

/-- The quotient of words toward zero. -/
def WordStep.plain (x y : Int64) : WordStep x y where
  val := x / y
  property h := by
    have hne : y.toInt ≠ 0 := fun h0 => h (Int64.toInt_inj.1 (by simpa using h0))
    rw [Window.sub_div_mul, Int64.toInt_mod, Int.natAbs_tmod]
    exact Nat.mod_lt _ (Int.natAbs_pos.2 hne)

/-- **What stands for the divisions of an algorithm**, in a monad of its own. -/
structure Division (M : Type → Type) [Monad M] where
  /-- The quotient of a division that is meant to leave nothing. -/
  exact : Int → Int → M Int
  /-- The remainder that has the sign of the divisor. -/
  floorMod : Int → Int → M Int
  /-- A step of Euclid's algorithm. -/
  step : (x y : Int) → M (IntStep y)
  /-- A step on words. -/
  word : (x y : Int64) → M (WordStep x y)
  exact_eq : ∀ {x y}, y ≠ 0 → y ∣ x → exact x y = pure (x.tdiv y)
  floorMod_eq : ∀ {x y}, y ≠ 0 → floorMod x y = pure (x.fmod y)
  step_eq : ∀ {x y}, y ≠ 0 → step x y = pure (.plain x y)
  word_eq : ∀ {x y}, y ≠ 0 → word x y = pure (.plain x y)

namespace Division

/-- Plain division, defined everywhere. -/
def plain : Division Id where
  exact x y := x.tdiv y
  floorMod x y := x.fmod y
  step x y := IntStep.plain x y
  word x y := WordStep.plain x y
  exact_eq _ _ := rfl
  floorMod_eq _ := rfl
  step_eq _ := rfl
  word_eq _ := rfl

/-- **Division that refuses** to divide by zero, and to leave something where
nothing is meant to be left. -/
def checked : Division Option where
  exact x y := if y ≠ 0 ∧ y ∣ x then some (x.tdiv y) else none
  floorMod x y := if y ≠ 0 then some (x.fmod y) else none
  step x y := if y ≠ 0 then some (.plain x y) else none
  word x y := if y ≠ 0 then some (.plain x y) else none
  exact_eq hy hxy := if_pos ⟨hy, hxy⟩
  floorMod_eq hy := if_pos hy
  step_eq hy := if_pos hy
  word_eq hy := if_pos hy

variable {M : Type → Type} [Monad M] {x y : Int}

/-- Where nothing is left it does not matter how a quotient is rounded. -/
theorem exact_ediv (q : Division M) (hy : y ≠ 0) (h : y ∣ x) : q.exact x y = pure (x / y) := by
  rw [q.exact_eq hy h, Int.tdiv_eq_ediv_of_dvd h]

end Division

variable {M : Type → Type} [Monad M]

namespace Bezout

/-- Euclid's algorithm by a given division. -/
def euclidWith (q : Division M) (r r' s s' : Int) : M (Int × Int) :=
  if _ : r' = 0 then pure (r, s)
  else do
    let ⟨(quotient, rest), _⟩ ← q.step r r'
    euclidWith q r' rest s' (s - quotient * s')
termination_by r'.natAbs
decreasing_by
  rename_i h hrest
  exact hrest h

/-- The greatest common divisor and its cofactors by a given division. -/
def ofWith (q : Division M) (a b : Int) : M Bezout := do
  let (r, s) ← euclidWith q a b 1 0
  let (g, s) := if r < 0 then (-r, -s) else (r, s)
  if g = 0 then return ⟨0, 0, 0⟩
  else if b = 0 then return ⟨g, a.sign, 0⟩
  else
    let period := (← q.exact b g).natAbs
    let residue ← q.floorMod s period
    let left := if period < 2 * residue then residue - period else residue
    return ⟨g, left, ← q.exact (g - a * left) b⟩

variable [LawfulMonad M]

theorem euclidWith_eq (q : Division M) (r r' s s' : Int) :
    euclidWith q r r' s s' = pure (euclid r r' s s') := by
  induction r, r', s, s' using euclid.induct with
  | case1 r s s' => simp [euclidWith, euclid]
  | case2 r r' s s' hne ih =>
    rw [euclidWith, dif_neg hne, q.step_eq hne, pure_bind, euclid, if_neg hne]
    exact ih

/-- **The cofactors are those of plain division**: what is divided has the
factor it is freed of, or is the multiple that is left to supply. -/
theorem ofWith_eq (q : Division M) (a b : Int) : ofWith q a b = pure (of a b) := by
  have hgcd := gcd_of a b
  have hmod := modEq_left_of a b
  rw [ofWith, euclidWith_eq, pure_bind]
  unfold of at hgcd hmod ⊢
  generalize euclid a b 1 0 = x at *
  obtain ⟨r, s⟩ := x
  simp only at hgcd hmod ⊢
  generalize (if r < 0 then (-r, -s) else (r, s)) = x at *
  obtain ⟨g, s⟩ := x
  simp only at hgcd hmod ⊢
  by_cases hg : g = 0
  · rw [if_pos hg, if_pos hg]
  · by_cases hb : b = 0
    · rw [if_neg hg, if_neg hg, if_pos hb, if_pos hb]
    · simp only [if_neg hg, if_neg hb] at hgcd hmod ⊢
      have hgb : g ∣ b := hgcd ▸ Int.gcd_dvd_right a b
      have hperiod : ((b.tdiv g).natAbs : Int) ≠ 0 := by
        have := Int.mul_tdiv_cancel' hgb
        intro h
        rw [Int.natCast_eq_zero, Int.natAbs_eq_zero] at h
        rw [h, mul_zero] at this
        exact hb this.symm
      have hcentered : ∀ period : Nat,
          (if (period : Int) < 2 * s.fmod period then s.fmod period - period else s.fmod period) =
            centered s period := by
        intro period
        rw [centered, Int.fmod_eq_emod_of_nonneg _ (Int.natCast_nonneg period)]
      rw [q.exact_eq hg hgb, pure_bind, q.floorMod_eq hperiod, pure_bind, hcentered,
        q.exact_eq hb hmod.dvd, pure_bind]

end Bezout

namespace Window

/-- One step on the words, by a given quotient. -/
def stepBy (w : Window) (quotient : Int64) : Window :=
  { upper := w.lower, lower := w.upper - quotient * w.lower
    p := w.r, q := w.s
    r := w.p - quotient * w.r, s := w.q - quotient * w.s
    steps := w.steps + 1 }

/-- The steps on words by a given division. -/
def runWith (q : Division M) (bound : Int64) (w : Window) : M Window :=
  if _ : w.lower ≠ 0 ∧ bound < w.lower then do
    let ⟨quotient, _⟩ ← q.word w.upper w.lower
    if (w.stepBy quotient).accepts then runWith q bound (w.stepBy quotient) else pure w
  else pure w
termination_by w.lower.toInt.natAbs
decreasing_by
  rename_i h hquotient _
  exact hquotient h.1

theorem runWith_eq [LawfulMonad M] (q : Division M) (bound : Int64) (w : Window) :
    runWith q bound w = pure (run bound w) := by
  induction w using run.induct bound with
  | case1 w h haccepts ih =>
    rw [runWith, dif_pos h, q.word_eq h.1, pure_bind, run, if_pos h, if_pos haccepts]
    exact (if_pos haccepts).trans ih
  | case2 w h haccepts =>
    rw [runWith, dif_pos h, q.word_eq h.1, pure_bind, run, if_pos h, if_neg haccepts]
    exact if_neg haccepts
  | case3 w h => rw [runWith, dif_neg h, run, if_neg h]

end Window

namespace Remainders

/-- One exact division by a given one. -/
def divideWith (q : Division M) (x : Remainders) : M Remainders := do
  let ⟨(quotient, rest), _⟩ ← q.step x.upper x.lower
  return { upper := x.lower, lower := rest
           coUpper := x.coLower, coLower := x.coUpper - quotient * x.coLower }

/-- A run of steps on the leading words by a given division, or one division. -/
def advanceWith (q : Division M) (bound : Int) (x : Remainders) : M Remainders := do
  let w ← (Window.opened x.upper x.lower x.shift).runWith q (Window.word bound x.shift)
  if w.steps = 0 then x.divideWith q else return x.apply w

/-- Advances at most `fuel` times by a given division. -/
def advanceManyWith (q : Division M) (bound : Int) : Nat → Remainders → M Remainders
  | 0, x => return x
  | fuel + 1, x => do
    if x.lower ≠ 0 ∧ bound < x.lower then advanceManyWith q bound fuel (← x.advanceWith q bound)
    else return x

variable [LawfulMonad M]

theorem advanceManyWith_eq (q : Division M) (bound : Int) (fuel : Nat) (x : Remainders) :
    advanceManyWith q bound fuel x = pure (advanceMany bound fuel x) := by
  induction fuel generalizing x with
  | zero => rfl
  | succ fuel ih =>
    rw [advanceManyWith, advanceMany]
    by_cases h : x.lower ≠ 0 ∧ bound < x.lower
    · have hadvance : x.advanceWith q bound = pure (x.advance bound) := by
        rw [advanceWith, Window.runWith_eq, pure_bind, advance]
        split
        · rw [divideWith, q.step_eq h.1, pure_bind]
          rfl
        · rfl
      rw [if_pos h, if_pos h, hadvance, pure_bind, ih]
    · rw [if_neg h, if_neg h]

end Remainders

/-- The partial remainder sequence by a given division. -/
def partialGcdWith (q : Division M) (a b bound : Int) : M Remainders := do
  let x ← Remainders.advanceManyWith q bound (a.natAbs + b.natAbs + 1) (Remainders.start a b)
  return if x.upper < 0 then ⟨-x.upper, x.lower, -x.coUpper, -x.coLower⟩ else x

/-- **The partial sequence is that of plain division**: it only divides by
remainders that are not zero. -/
theorem partialGcdWith_eq [LawfulMonad M] (q : Division M) (a b bound : Int) :
    partialGcdWith q a b bound = pure (partialGcd a b bound) := by
  rw [partialGcdWith, Remainders.advanceManyWith_eq, pure_bind]
  rfl

end VerifiableDelay
