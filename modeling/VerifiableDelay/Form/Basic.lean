import VerifiableDelay.Discriminant
/-!
# Binary quadratic forms

A form `a * x ^ 2 + b * x * y + c * y ^ 2`, and its reduction. Two
substitutions of determinant one move a form within its class: exchanging
the variables (`swap`) and shifting the first by a multiple of the second
(`shift`). Reduction alternates them until the coefficients are in
order, and what it ends at is the one reduced form of the class.
-/

namespace VerifiableDelay

/-- The coefficients of `a * x ^ 2 + b * x * y + c * y ^ 2`. -/
structure Form where
  a : Int
  b : Int
  c : Int
  deriving Repr, DecidableEq

namespace Form

/-- `b ^ 2 - 4 * a * c`. -/
def discriminant (f : Form) : Int := f.b * f.b - 4 * (f.a * f.c)

/-- The form after `x` becomes `y` and `y` becomes `-x`. -/
def swap (f : Form) : Form := ⟨f.c, -f.b, f.a⟩

/-- The form after `x` becomes `x + r * y`. -/
def shift (f : Form) (r : Int) : Form :=
  ⟨f.a, f.b + 2 * f.a * r, f.c + r * (f.b + f.a * r)⟩

/-- Shifts `b` into the interval from `-a`, left out, to `a`. -/
def normalize (f : Form) : Form :=
  if -f.a < f.b ∧ f.b ≤ f.a then f else f.shift ((f.a - f.b).fdiv (2 * f.a))

/-- Whether the outer coefficients are in order, with the sign of the
middle one settled between two equal. -/
def Ordered (f : Form) : Prop := ¬ (f.c < f.a ∨ f.a = f.c ∧ f.b < 0)

instance (f : Form) : Decidable f.Ordered := inferInstanceAs (Decidable (¬ _))

/-- Swaps and normalizes, at most `fuel` times, until the coefficients are
in order. -/
def settle : (fuel : Nat) → Form → Form
  | 0, f => f
  | fuel + 1, f => if f.Ordered then f else settle fuel f.swap.normalize

/-- **The reduced form** of the class. A swap brings the smaller outer
coefficient to the front, so no more are needed than it counts; between two
equal ones a last swap settles the sign. The normalization that a reduction
closes with is left out here: what a definite form has come to by then is
normalized, and it does nothing. -/
def reduced (f : Form) : Form := f.normalize.settle (f.a.natAbs + f.c.natAbs + 2)

/-- Whether `f` is reduced: `|b| ≤ a ≤ c`, and `b` is not negative where one
of the two is an equality. -/
def isReduced (f : Form) : Bool :=
  f.b.natAbs ≤ f.a && f.a ≤ f.c && !((f.a == f.c || (f.b.natAbs : Int) == f.a) && f.b < 0)

/-- The reduced form of the inverse class. -/
def inverse (f : Form) : Form := reduced ⟨f.a, -f.b, f.c⟩

/-- The neutral form. -/
def identity (d : Discriminant) : Form := ⟨1, 1, (1 - d.value) / 4⟩

/-- The form that runs start from unless told otherwise. -/
def generator (d : Discriminant) : Form := reduced ⟨2, 1, (1 - d.value) / 8⟩

/-- Whether `f`, if reduced, is the neutral form. -/
def isIdentity (f : Form) : Bool := f.a == 1 && f.b == 1

/-- The reduced form that begins with `a` and `b`, whose third coefficient
the discriminant determines. -/
def ofLeading (d : Discriminant) (a b : Int) : Except FormError Form :=
  if a ≤ 0 then .error (.coefficients .leadingNotPositive)
  else if (b * b - d.value) % (4 * a) ≠ 0 then .error (.coefficients .notDivisible)
  else .ok (reduced ⟨a, b, (b * b - d.value) / (4 * a)⟩)

/-- The coefficients between parentheses. -/
def shown (f : Form) : String :=
  "(" ++ toString f.a ++ ", " ++ toString f.b ++ ", " ++ toString f.c ++ ")"

@[simp] theorem shift_zero (f : Form) : f.shift 0 = f := by
  simp [shift]

/-- Normalizing keeps the leading coefficient. -/
@[simp] theorem normalize_a (f : Form) : f.normalize.a = f.a := by
  unfold normalize
  split <;> rfl

/-- A swap keeps the discriminant. -/
theorem discriminant_swap (f : Form) : f.swap.discriminant = f.discriminant := by
  simp only [swap, discriminant]
  grind

/-- A shift keeps the discriminant. -/
theorem discriminant_shift (f : Form) (r : Int) :
    (f.shift r).discriminant = f.discriminant := by
  simp only [shift, discriminant]
  grind

/-- So does normalizing, which is one. -/
theorem discriminant_normalize (f : Form) : f.normalize.discriminant = f.discriminant := by
  unfold normalize
  split
  · rfl
  · exact discriminant_shift f _

/-- And the loop of reduction, however long it runs. -/
theorem discriminant_settle (fuel : Nat) (f : Form) :
    (f.settle fuel).discriminant = f.discriminant := by
  induction fuel generalizing f with
  | zero => rfl
  | succ fuel ih =>
    unfold settle
    split
    · rfl
    · rw [ih, discriminant_normalize, discriminant_swap]

/-- Reduction keeps the discriminant. -/
theorem discriminant_reduced (f : Form) : f.reduced.discriminant = f.discriminant := by
  rw [reduced, discriminant_settle, discriminant_normalize]

end Form

end VerifiableDelay
