import VerifiableDelay.Challenge
import VerifiableDelay.Form.Compose
import VerifiableDelay.Quotient.Digits
/-!
# The proof of a segment

For a segment of `T` squarings from `x` to `y` and its challenge `B`, the
proof is `x` to the quotient of `2 ^ T` by `B`. The quotient is too long to
write down, but its digits come one by one, and the power of `x` that a
digit of the first column counts for is a checkpoint. So the checkpoints of
a column are sorted into buckets by their digits, and the buckets raised to
the digits they stand for. A digit is taken as its high and its low half:
the buckets of one high half are multiplied before they are raised to it,
and so for the low halves. Between columns everything is raised to the power
of a whole digit, from the last column down to the first.
-/

namespace VerifiableDelay

-- powers of natural numbers are those of the core library
attribute [local instance (high)] instPowNat

/-- Where a prover finds the checkpoints of a segment: number `i` is its
start raised to `2` to `i` strides. -/
abbrev Checkpoints := (i : Nat) → Except DelayError Form

namespace Power

/-- For each digit the product of the checkpoints sorted under it, if there
are any. -/
abbrev Buckets := Array (Option Form)

/-- Empty buckets for digits of the given width. -/
def noBuckets (width : Nat) : Buckets := Array.replicate (2 ^ width) none

/-- What is in a bucket. -/
def bucket (b : Buckets) (digit : Nat) : Option Form := b[digit]?.join

/-- Multiplies a form into a bucket. -/
def sortInto (d : Discriminant) (b : Buckets) (digit : Nat) (f : Form) : Buckets :=
  b.modify digit fun
    | none => some f
    | some g => some (Form.composite d g f)

/-- Sorts the checkpoints of a column, from row `row` on and `rows` at
most. The column ends with the digits of the quotient. A position is counted
in a word, as the iterations are. It could leave it only with digits of one
bit, for a run of so many iterations that a number of columns more is no word:
no such run is ever completed. -/
def sortColumn (d : Discriminant) (checkpoints : Checkpoints) (column : Nat) :
    (rows row : Nat) → Quotient.Walk → Buckets → Except DelayError Buckets
  | 0, _, _, b => .ok b
  | rows + 1, row, w, b =>
    let position := row * w.parameters.columns + column
    if w.iterations < w.parameters.width * (position + 1) then .ok b
    else
      match w.next position with
      | (.error e, _) => .error e
      | (.ok digit, w) => do
        let f ← checkpoints row
        sortColumn d checkpoints column rows (row + 1) w (sortInto d b digit f)

/-- The product of what the buckets of the given digits hold. -/
def product (d : Discriminant) (b : Buckets) (digits : List Nat) : Form :=
  digits.foldl (fun z digit =>
    match bucket b digit with
    | some f => Form.composite d z f
    | none => z) (Form.identity d)

/-- Multiplies the power of each high half of a digit into `acc`. -/
def raiseHigh (d : Discriminant) (highWidth lowWidth : Nat) (b : Buckets) (acc : Form) : Form :=
  (List.range (2 ^ highWidth)).foldl (fun acc high =>
    let digits := (List.range (2 ^ lowWidth)).map fun low => high * 2 ^ lowWidth + low
    Form.composite d acc ((product d b digits).pow d (high * 2 ^ lowWidth))) acc

/-- Multiplies the power of each low half of a digit into `acc`. -/
def raiseLow (d : Discriminant) (highWidth lowWidth : Nat) (b : Buckets) (acc : Form) : Form :=
  (List.range (2 ^ lowWidth)).foldl (fun acc low =>
    let digits := (List.range (2 ^ highWidth)).map fun high => high * 2 ^ lowWidth + low
    Form.composite d acc ((product d b digits).pow d low)) acc

/-- Multiplies every bucket, raised to its digit, into `acc`. -/
def raise (d : Discriminant) (width : Nat) (b : Buckets) (acc : Form) : Form :=
  let highWidth := width / 2
  let lowWidth := width - highWidth
  raiseLow d highWidth lowWidth b (raiseHigh d highWidth lowWidth b acc)

/-- Takes in the columns below `columns`, the last first. -/
def takeColumns (d : Discriminant) (checkpoints : Checkpoints) (rows : Nat) (w : Quotient.Walk) :
    (columns : Nat) → Form → Except DelayError Form
  | 0, acc => .ok acc
  | column + 1, acc => do
    let width := w.parameters.width
    let acc := acc.pow d (2 ^ width)
    let b ← sortColumn d checkpoints column rows 0 (w.startColumn column) (noBuckets width)
    takeColumns d checkpoints rows w column (raise d width b acc)

/-- **The proof** that `iterations` squarings lead from `x` to `y`. A prover
told to stop does so at its first digit, and there is one unless there is
nothing to prove. -/
def prove (d : Discriminant) (x y : Form) (checkpoints : Checkpoints) (iterations : Nat)
    (parameters : Parameters) (stopped : Bool) : Except DelayError Form :=
  if iterations = 0 then .ok (Form.identity d)
  else do
    let modulus ← ofFormResult (Challenge.prime d x y)
    if stopped then .error .stopped
    else
      let w := Quotient.Walk.ofQuotient modulus parameters iterations
      let acc ← takeColumns d checkpoints (parameters.rows iterations) w parameters.columns
        (Form.identity d)
      return acc.reduced

end Power

end VerifiableDelay
