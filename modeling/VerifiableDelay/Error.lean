import VerifiableDelay.Form.Error
/-!
# What can go wrong with a run or a proof

The causes for which the squaring loop, a prover or a verifier gives no
answer, and the wording of each.
-/

namespace VerifiableDelay

/-- Which relation between the settings is broken. -/
inductive SettingsFault where
  | batchZero
  | baseBits
  | levels
  | window
  | batchTooLong
  | switchPoint
  | haltMargin
  | pollZero
  deriving Repr, DecidableEq

/-- Why a run, a prover or a verifier gave no answer. -/
inductive DelayError where
  | form (error : FormError)
  /-- The quotient has no digit at this position. -/
  | noDigit (position : Nat)
  | zeroModulus
  /-- The layout has no slot for this iteration. -/
  | noSlot (iteration : Nat)
  | missing (iteration : Nat)
  /-- The slot of this iteration may have been used again. -/
  | lapped (iteration : Nat)
  | stalled (progress target : Nat)
  | stopped
  /-- The loop ended at this iteration, before the one asked for. -/
  | ended (iteration : Nat)
  | segmentCount (count : Nat)
  | settings (fault : SettingsFault)
  /-- The segments of a chain are longer than what it claims. -/
  | chainTooLong
  /-- A sum or a product left its word. -/
  | overflow
  deriving Repr, DecidableEq

/-- The wording of a fault. -/
def SettingsFault.message : SettingsFault → String
  | .batchZero => "batch_size must be positive"
  | .baseBits => "segment_base_bits must lie in 6..=40"
  | .levels => "segment_levels must lie in 1..=12"
  | .window => "segment_window must be at least 2"
  | .batchTooLong => "a batch must be shorter than the checkpoint window"
  | .switchPoint => "switch_iterations must be a multiple of 100 below max_iterations"
  | .haltMargin => "halt_margin must leave room after the switch"
  | .pollZero => "poll_interval_ms must be positive"

/-- The wording of an error. -/
def DelayError.message : DelayError → String
  | .form error => "class group error: " ++ error.message
  | .noDigit position =>
    "block index of block " ++ toString position ++ " does not fit in k bits"
  | .zeroModulus => "a quotient by zero has no digits"
  | .noSlot iteration => "no checkpoint slot for iteration " ++ toString iteration
  | .missing iteration =>
    "checkpoint for iteration " ++ toString iteration ++ " was not written"
  | .lapped iteration =>
    "the squaring loop lapped the checkpoint window of iteration " ++ toString iteration
  | .stalled progress target =>
    "progress stalled at " ++ toString progress ++ " while waiting for iteration " ++
      toString target
  | .stopped => "the run was stopped"
  | .ended iteration => "the squaring loop ended at iteration " ++ toString iteration
  | .segmentCount count => "a proof cannot chain " ++ toString count ++ " segments"
  | .settings fault => "invalid configuration: " ++ fault.message
  | .chainTooLong => "invalid proof: segments exceed the claimed iterations"
  | .overflow => "a number does not fit in a word"

/-- An answer about forms, as one about a run. -/
def ofFormResult {α : Type} : Except FormError α → Except DelayError α
  | .ok a => .ok a
  | .error e => .error (.form e)

variable {ε α β : Type}

/-- What follows an answer has one just if the answer is there and leads to
it. -/
theorem bind_eq_ok_iff {x : Except ε α} {f : α → Except ε β} {b : β} :
    x >>= f = .ok b ↔ ∃ a, x = .ok a ∧ f a = .ok b := by
  cases x with
  | error e => simp [bind, Except.bind]
  | ok a => simp [bind, Except.bind]

/-- What follows an answer fails just if there is none or it leads to none. -/
theorem bind_eq_error_iff {x : Except ε α} {f : α → Except ε β} {e : ε} :
    x >>= f = .error e ↔ x = .error e ∨ ∃ a, x = .ok a ∧ f a = .error e := by
  cases x with
  | error e' => simp [bind, Except.bind]
  | ok a => simp [bind, Except.bind]

theorem pure_eq_ok_iff {a b : α} : (pure a : Except ε α) = .ok b ↔ a = b := by
  simp [pure, Except.pure]

theorem isOk_iff_exists {x : Except ε α} : x.isOk = true ↔ ∃ a, x = .ok a := by
  cases x <;> simp [Except.isOk, Except.toBool]

/-- What is refused has no answer. -/
theorem ite_error_eq_ok_iff {p : Prop} [Decidable p] {e : ε} {x : Except ε α} {a : α} :
    (if p then .error e else x) = .ok a ↔ ¬ p ∧ x = .ok a := by
  by_cases h : p <;> simp [h]

theorem ofFormResult_eq_ok_iff {x : Except FormError α} {a : α} :
    ofFormResult x = .ok a ↔ x = .ok a := by
  cases x <;> simp [ofFormResult]

end VerifiableDelay
