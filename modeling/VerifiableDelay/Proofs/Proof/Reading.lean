import VerifiableDelay.Proofs.Class.Exponent
import VerifiableDelay.Proofs.Proof.Power
/-!
# What a proof reads

A column goes up its rows and ends with the digits of the quotient, so a
proof depends on no checkpoint but those of the rows (`Power.prove_congr`),
and the digits it sorts them under are always there: without a proof there is
no challenge, or the prover was stopped, or one of these checkpoints was
refused (`Power.error_cases_of_prove`). What they have to be is a form of
their class, reduced or not. Then **the proof is the power of the start to
the quotient, coefficient by coefficient, whatever the digits and the
columns** (`Power.proof_is_quotient_power`).
-/

namespace VerifiableDelay

open Form

variable {d : Discriminant} {x y acc : Form} {parameters : Parameters} {iterations : Nat}

namespace Power

variable {checkpoints others : Checkpoints} {column row rows columns modulus : Nat}
variable {w : Quotient.Walk} {b : Buckets} {stopped : Bool} {error : DelayError}

/-! ## Which checkpoints are read -/

/-- A column reads the checkpoints of its rows. -/
theorem sortColumn_congr (h : ∀ i, row ≤ i → i < row + rows → checkpoints i = others i) :
    sortColumn d checkpoints column rows row w b = sortColumn d others column rows row w b := by
  induction rows generalizing row w b with
  | zero => rfl
  | succ rows ih =>
    have hrest : ∀ w b, sortColumn d checkpoints column rows (row + 1) w b =
        sortColumn d others column rows (row + 1) w b :=
      fun w b => ih fun i hlow hhigh => h i (by omega) (by omega)
    simp only [sortColumn, h row le_rfl (by omega), hrest]

theorem takeColumns_congr (h : ∀ i < rows, checkpoints i = others i) :
    takeColumns d checkpoints rows w columns acc = takeColumns d others rows w columns acc := by
  induction columns generalizing acc with
  | zero => rfl
  | succ column ih =>
    have hcolumn : ∀ b, sortColumn d checkpoints column rows 0 (w.startColumn column) b =
        sortColumn d others column rows 0 (w.startColumn column) b :=
      fun b => sortColumn_congr fun i _ hi => h i (by omega)
    simp only [takeColumns, hcolumn, ih]

/-- **A proof reads the checkpoints of its rows**: prover and prover agree, on
the proof as on why there is none, where these do. -/
theorem prove_congr (h : ∀ i < parameters.rows iterations, checkpoints i = others i) :
    prove d x y checkpoints iterations parameters stopped =
      prove d x y others iterations parameters stopped := by
  simp only [prove, takeColumns_congr h]

/-! ## Why there is no proof -/

/-- **A column that can not be sorted** was refused the checkpoint of a row:
there is a digit wherever one is asked for. -/
theorem exists_error_of_sortColumn (hm : 0 < modulus) (hwidth : parameters.width ≤ 63)
    (hw : w.At modulus parameters iterations (row * parameters.columns + column))
    (h : sortColumn d checkpoints column rows row w b = .error error) :
    ∃ i < row + rows, checkpoints i = .error error := by
  induction rows generalizing row w b with
  | zero => cases h
  | succ rows ih =>
    rw [sortColumn, hw.iterations_eq, hw.parameters_eq] at h
    split at h
    · cases h
    · rename_i hlt
      obtain ⟨hdigit, hnext⟩ := hw.next_row hm hwidth (not_lt.1 hlt)
      split at h
      · rename_i hnone
        rw [hnone] at hdigit
        cases hdigit
      · rename_i hsome
        rw [hsome] at hnext
        rcases bind_eq_error_iff.1 h with hrefused | ⟨f, -, hrest⟩
        · exact ⟨row, by omega, hrefused⟩
        · obtain ⟨i, hi, hrefused⟩ := ih hnext hrest
          exact ⟨i, by omega, hrefused⟩

theorem exists_error_of_takeColumns (hm : 0 < modulus) (hwidth : parameters.width ≤ 63)
    (h : takeColumns d checkpoints rows (.ofQuotient modulus parameters iterations) columns acc =
      .error error) : ∃ i < rows, checkpoints i = .error error := by
  induction columns generalizing acc with
  | zero => cases h
  | succ column ih =>
    rw [takeColumns] at h
    rcases bind_eq_error_iff.1 h with hcolumn | ⟨b, -, hrest⟩
    · have hw := Quotient.Walk.at_firstRow hm parameters iterations column
      obtain ⟨i, hi, hrefused⟩ := exists_error_of_sortColumn hm hwidth hw hcolumn
      exact ⟨i, by omega, hrefused⟩
    · exact ih hrest

/-- **Why there is no proof**: there is no challenge, the prover was stopped,
or it was refused a checkpoint of its rows. A digit is never what it lacks. -/
theorem error_cases_of_prove (hwidth : parameters.width ≤ 63)
    (h : prove d x y checkpoints iterations parameters stopped = .error error) :
    iterations ≠ 0 ∧ (error = .form .noPrime ∧ Challenge.prime d x y = .error .noPrime ∨
      error = .stopped ∧ stopped = true ∨
      ∃ i < parameters.rows iterations, checkpoints i = .error error) := by
  have hpos : iterations ≠ 0 := by
    rintro rfl
    cases h
  refine ⟨hpos, ?_⟩
  by_cases hchallenge : Challenge.prime d x y = .error .noPrime
  · rw [prove, if_neg hpos, hchallenge] at h
    cases h
    exact .inl ⟨rfl, hchallenge⟩
  · obtain ⟨modulus, hmodulus⟩ := Challenge.exists_prime hchallenge
    have hm : 0 < modulus :=
      (Nat.two_pow_pos _).trans_le (Challenge.two_pow_width_le_of_prime hmodulus hwidth)
    rw [prove, if_neg hpos, hmodulus] at h
    change (if stopped then _ else _) = _ at h
    split at h
    · rename_i hstopped
      cases h
      exact .inr (.inl ⟨rfl, hstopped⟩)
    · rcases bind_eq_error_iff.1 h with hcolumns | ⟨acc, -, hpure⟩
      · exact .inr (.inr (exists_error_of_takeColumns hm hwidth hcolumns))
      · cases hpure

/-! ## What the proof is -/

/-- Forms of the classes that squaring leads to are the checkpoints of a run,
reduced or not. -/
theorem faithful_of_equivalent {c : FormClass d} (hx : Represents d x c)
    (h : ∀ i < parameters.rows iterations, ∃ f, checkpoints i = .ok f ∧
      (squareTimes d (parameters.stride * i) x).Equivalent f) :
    Faithful d checkpoints c parameters.stride iterations := by
  intro i hi
  obtain ⟨f, hf, hequivalent⟩ := h i (Parameters.lt_rows_iff.2 hi)
  exact ⟨f, hf, (hx.squareTimes _).of_equivalent hequivalent⟩

/-- **The proof is the quotient power, whatever the parameters.** Let there be
a challenge for a primitive definite form and any other. With checkpoints, for
each row, of the classes that squaring leads to, the prover answers with the
start raised to the quotient of `2 ^ T` by the challenge: the reduced form of
the power of its class, the same for digits of any width that fits a word and
for any number of columns. It reads no checkpoint past the rows, and whatever
it reads, it fails only where it is stopped or one of these is refused. -/
theorem proof_is_quotient_power (hx : x.Definite d.value) (hp : x.Primitive)
    (hwidth : parameters.width ≤ 63) (hchallenge : Challenge.prime d x y = .ok modulus) :
    ((x.pow d (2 ^ iterations / modulus)).isReduced = true ∧
      (x.pow d (2 ^ iterations / modulus)).classOf d =
        x.classOf d ^ (2 ^ iterations / modulus)) ∧
    (∀ checkpoints : Checkpoints,
      (∀ i < parameters.rows iterations, ∃ f, checkpoints i = .ok f ∧
        (squareTimes d (parameters.stride * i) x).Equivalent f) →
      prove d x y checkpoints iterations parameters false =
        .ok (x.pow d (2 ^ iterations / modulus))) ∧
    (∀ (checkpoints others : Checkpoints) (stopped : Bool),
      (∀ i < parameters.rows iterations, checkpoints i = others i) →
      prove d x y checkpoints iterations parameters stopped =
        prove d x y others iterations parameters stopped) ∧
    ∀ (checkpoints : Checkpoints) (stopped : Bool) (error : DelayError),
      prove d x y checkpoints iterations parameters stopped = .error error →
      error = .stopped ∧ stopped = true ∨
        ∃ i < parameters.rows iterations, checkpoints i = .error error := by
  have hrep : Represents d x (x.classOf d) := ⟨hx, hp, rfl⟩
  refine ⟨⟨hrep.isReduced_pow _, (hrep.pow _).classOf_eq⟩, fun checkpoints hcheck => ?_,
    fun _ _ _ => prove_congr, fun checkpoints stopped error herror => ?_⟩
  · obtain ⟨proof, hproof, hpower, hreduced⟩ :=
      prove_eq hwidth (faithful_of_equivalent hrep hcheck) hchallenge
    rw [hproof, hrep.pow_eq hpower hreduced]
  · obtain ⟨-, ⟨-, hnone⟩ | hcause⟩ := error_cases_of_prove hwidth herror
    · cases hchallenge.symm.trans hnone
    · exact hcause

/-- Digits of five bits in three columns. -/
def parameters47 : Parameters := { width := 5, columns := 3 }

/-- The checkpoints of a run of 301 squarings, each with its outer coefficients
the wrong way round, and no others. -/
def swapped47 : Checkpoints := fun i =>
  if i < parameters47.rows 301 then
    .ok (squareTimes discriminant47 (parameters47.stride * i) ⟨6, 11, 7⟩).swap
  else .error (.missing i)

/-- The challenge of the run. -/
def challenge47 : Nat :=
  23571432299289195125671574854115546319548925626496273098897803660391111889879791

/-- With 21 checkpoints that are not reduced, and for digits that leave one bit
of the quotient over, the prover answers with the power of a form of
discriminant `-47` that is not reduced. -/
theorem proof_is_quotient_power_47 :
    (Definite (-47) ⟨6, 11, 7⟩ ∧ Primitive ⟨6, 11, 7⟩ ∧ parameters47.width ≤ 63) ∧
    Challenge.prime discriminant47 ⟨6, 11, 7⟩ ⟨3, -1, 4⟩ = .ok challenge47 ∧
    (swapped47 1 = .ok ⟨4, -1, 3⟩ ∧ swapped47 21 = .error (.missing 21)) ∧
    2 ^ 301 / challenge47 = 172839388838 ∧
    prove discriminant47 ⟨6, 11, 7⟩ ⟨3, -1, 4⟩ swapped47 301 parameters47 false =
      .ok (pow discriminant47 ⟨6, 11, 7⟩ 172839388838) ∧
    pow discriminant47 ⟨6, 11, 7⟩ 172839388838 = ⟨3, 1, 4⟩ := by
  have hx : Definite (-47) ⟨6, 11, 7⟩ := ⟨by decide, by decide⟩
  have hp : Primitive ⟨6, 11, 7⟩ := by decide
  have hchallenge : Challenge.prime discriminant47 ⟨6, 11, 7⟩ ⟨3, -1, 4⟩ = .ok challenge47 := by
    decide +kernel
  have hquotient : 2 ^ 301 / challenge47 = 172839388838 := by decide +kernel
  have hproof : prove discriminant47 ⟨6, 11, 7⟩ ⟨3, -1, 4⟩ swapped47 301 parameters47 false =
      .ok (pow discriminant47 ⟨6, 11, 7⟩ (2 ^ 301 / challenge47)) :=
    (proof_is_quotient_power (d := discriminant47) hx hp (by decide) hchallenge).2.1 swapped47
      fun i hi => ⟨_, if_pos hi, equivalent_swap _⟩
  rw [hquotient] at hproof
  exact ⟨⟨hx, hp, by decide⟩, hchallenge, by decide +kernel, hquotient, hproof, by decide +kernel⟩

end Power

end VerifiableDelay
