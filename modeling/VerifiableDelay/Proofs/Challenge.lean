import VerifiableDelay.Challenge
import VerifiableDelay.Proofs.Bytes.Complement
import VerifiableDelay.Proofs.Form.Reduction
/-!
# What the challenge depends on

The challenge is hashed from reduced forms, so it is the same whether or not
the two forms are reduced already. It depends on them alone: the coefficients
of reduced forms fit the width they are written at, so **what is hashed names
the two reduced forms** (`seed_names_reduced_forms`). The challenge is a
candidate with its top bit set, and so larger than any digit.
-/

namespace VerifiableDelay

-- powers of natural numbers are those of the core library
attribute [local instance (high)] instPowNat

variable {d : Discriminant} {x y : Form}

namespace Challenge

/-- **Reducing a form does not change what is hashed of it.** -/
theorem transcript_reduced (width : Nat) (hx : x.Definite d.value) :
    transcript width x.reduced = transcript width x := by
  unfold transcript
  rw [if_pos (hx.isReduced_reduced d.value_neg)]
  by_cases hr : x.isReduced = true
  · rw [if_pos hr, Form.reduced_of_isReduced hx.leading_pos hr]
  · rw [if_neg hr]

/-- Nor does reducing the form that a statement starts from change the
challenge. -/
theorem prime_reduced_left (hx : x.Definite d.value) (y : Form) :
    prime d x.reduced y = prime d x y := by
  unfold prime seed
  rw [transcript_reduced _ hx]

/-- Nor the one it leads to. -/
theorem prime_reduced_right (x : Form) (hy : y.Definite d.value) :
    prime d x y.reduced = prime d x y := by
  unfold prime seed
  rw [transcript_reduced _ hy]

/-- So it depends on what the two reduce to. -/
theorem prime_congr {x' y' : Form} (hx : x.Definite d.value) (hx' : x'.Definite d.value)
    (hy : y.Definite d.value) (hy' : y'.Definite d.value) (hxx' : x.reduced = x'.reduced)
    (hyy' : y.reduced = y'.reduced) : prime d x y = prime d x' y' := by
  rw [← prime_reduced_left hx, ← prime_reduced_right _ hy, hxx', hyy', prime_reduced_left hx',
    prime_reduced_right _ hy']

/-! ## What is hashed -/

/-- The integers that the fields of a width hold, from the first on. -/
def fields (width : Nat) : (count : Nat) → (bytes : List UInt8) → List Int
  | 0, _ => []
  | count + 1, bytes =>
    Bytes.ofTwosComplement (bytes.take width) :: fields width count (bytes.drop width)

/-- The first field, whatever follows it. -/
theorem fields_append {width : Nat} (hwidth : 0 < width) (count : Nat) {n : Int}
    (hn : Bytes.InRange width n) (rest : List UInt8) :
    fields width (count + 1) (Bytes.toTwosComplement width n ++ rest) =
      n :: fields width count rest := by
  have hlen := Bytes.length_toTwosComplement width n
  rw [fields, List.take_left' hlen, List.drop_left' hlen, hn.read hwidth]

theorem coefficientWidth_pos (d : Discriminant) : 0 < coefficientWidth d := by
  unfold coefficientWidth
  omega

/-- **The coefficients of a reduced form fit the width**: three times the
square of the first is at most the discriminant, which is below twice the
square of what the width holds. -/
theorem inRange_of_isReduced (hx : x.Definite d.value) (hr : x.isReduced = true) :
    Bytes.InRange (coefficientWidth d) x.a ∧ Bytes.InRange (coefficientWidth d) x.b := by
  have ha := hx.leading_pos
  have hsize := Form.three_mul_a_sq_le ha hr
  have hb := (Form.isReduced_iff.1 hr).1
  have hneg := d.value_neg
  rw [hx.discriminant_eq] at hsize
  have hdisc : d.value.natAbs < 2 * (2 ^ (8 * coefficientWidth d - 1)) ^ 2 := by
    refine (lt_two_pow_bitLength d.value.natAbs).trans_le ?_
    rw [← d.bits_eq, ← Nat.pow_mul, ← Nat.pow_succ']
    refine Nat.pow_le_pow_right (by omega) ?_
    unfold coefficientWidth
    omega
  rw [Bytes.inRange_iff, Bytes.inRange_iff]
  generalize 2 ^ (8 * coefficientWidth d - 1) = half at hdisc ⊢
  have hlt : x.a < half := by
    zify at hdisc
    rw [abs_of_neg hneg] at hdisc
    by_contra hge
    have := pow_le_pow_left₀ (Int.natCast_nonneg half) (not_lt.1 hge) 2
    have := sq_nonneg x.a
    linarith
  omega

/-- **The coefficients are read back** from what is hashed. -/
theorem fields_seed (hx : x.Definite d.value) (hy : y.Definite d.value) :
    fields (coefficientWidth d) 4 (seed d x y) =
      [x.reduced.a, x.reduced.b, y.reduced.a, y.reduced.b] := by
  have hw := coefficientWidth_pos d
  have hrx := hx.isReduced_reduced d.value_neg
  have hry := hy.isReduced_reduced d.value_neg
  obtain ⟨hxa, hxb⟩ := inRange_of_isReduced (hx.reduced d.value_neg) hrx
  obtain ⟨hya, hyb⟩ := inRange_of_isReduced (hy.reduced d.value_neg) hry
  rw [seed, ← transcript_reduced _ hx, ← transcript_reduced _ hy, transcript, transcript,
    if_pos hrx, if_pos hry]
  simp only [List.append_assoc]
  rw [fields_append hw _ hxa, fields_append hw _ hxb, fields_append hw _ hya,
    ← List.append_nil (Bytes.toTwosComplement _ y.reduced.b), fields_append hw _ hyb, fields]

/-- **What is hashed names the two reduced forms.** Of definite forms of a
discriminant it is the same just if they reduce to the same: no coefficient
of a reduced form is cut off at the width, and each is read back from its
field. -/
theorem seed_names_reduced_forms {x' y' : Form} (hx : x.Definite d.value)
    (hy : y.Definite d.value) (hx' : x'.Definite d.value) (hy' : y'.Definite d.value) :
    (seed d x y = seed d x' y' ↔ x.reduced = x'.reduced ∧ y.reduced = y'.reduced) ∧
      (∀ n ∈ [x.reduced.a, x.reduced.b, y.reduced.a, y.reduced.b],
        Bytes.InRange (coefficientWidth d) n) ∧
      fields (coefficientWidth d) 4 (seed d x y) =
        [x.reduced.a, x.reduced.b, y.reduced.a, y.reduced.b] := by
  have hD := d.value_neg
  refine ⟨⟨fun h => ?_, fun ⟨hxx', hyy'⟩ => ?_⟩, ?_, fields_seed hx hy⟩
  · have hfields := fields_seed hx hy
    rw [h, fields_seed hx' hy'] at hfields
    simp only [List.cons.injEq, and_true] at hfields
    obtain ⟨hxa, hxb, hya, hyb⟩ := hfields
    exact ⟨((hx'.reduced hD).eq_of_leading (hx.reduced hD) hxa hxb).symm,
      ((hy'.reduced hD).eq_of_leading (hy.reduced hD) hya hyb).symm⟩
  · rw [seed, ← transcript_reduced _ hx, ← transcript_reduced _ hy, hxx', hyy',
      transcript_reduced _ hx', transcript_reduced _ hy', seed]
  · obtain ⟨hxa, hxb⟩ := inRange_of_isReduced (hx.reduced hD) (hx.isReduced_reduced hD)
    obtain ⟨hya, hyb⟩ := inRange_of_isReduced (hy.reduced hD) (hy.isReduced_reduced hD)
    simp [hxa, hxb, hya, hyb]

/-- The discriminant `-32767`, of fifteen bits, whose coefficients take one
byte. -/
def discriminant32767 : Discriminant :=
  { value := -32767, value_neg := by decide, value_mod := by decide }

/-- What is hashed of two forms that are not reduced and of those they reduce
to. -/
theorem seed_names_reduced_forms_32767 :
    ((Form.Definite discriminant32767.value ⟨106, 79, 92⟩ ∧
        Form.Definite discriminant32767.value ⟨92, -33, 92⟩) ∧
      Form.Definite discriminant32767.value ⟨92, -79, 106⟩ ∧
        Form.Definite discriminant32767.value ⟨92, 33, 92⟩) ∧
      seed discriminant32767 ⟨106, 79, 92⟩ ⟨92, -33, 92⟩ =
        seed discriminant32767 ⟨92, -79, 106⟩ ⟨92, 33, 92⟩ ∧
      fields 1 4 (seed discriminant32767 ⟨106, 79, 92⟩ ⟨92, -33, 92⟩) = [92, -79, 92, 33] := by
  have hx : Form.Definite discriminant32767.value ⟨106, 79, 92⟩ := ⟨by decide, by decide⟩
  have hy : Form.Definite discriminant32767.value ⟨92, -33, 92⟩ := ⟨by decide, by decide⟩
  have hx' : Form.Definite discriminant32767.value ⟨92, -79, 106⟩ := ⟨by decide, by decide⟩
  have hy' : Form.Definite discriminant32767.value ⟨92, 33, 92⟩ := ⟨by decide, by decide⟩
  obtain ⟨hiff, -, hfields⟩ := seed_names_reduced_forms hx hy hx' hy'
  exact ⟨⟨⟨hx, hy⟩, hx', hy'⟩, hiff.2 ⟨by decide, by decide⟩, hfields⟩

/-- **The search for the challenge can fail in one way only**: its parameters
are in order. -/
theorem exists_prime (h : prime d x y ≠ .error .noPrime) : ∃ p, prime d x y = .ok p := by
  unfold prime hashToPrime PrimeSearch.run at h ⊢
  have hseed : (seed d x y).isEmpty = false := by
    rw [List.isEmpty_eq_false_iff_exists_mem, ← List.length_pos_iff_exists_mem]
    simp only [seed, List.length_append, length_transcript, coefficientWidth]
    omega
  rw [if_neg (by decide), hseed, if_neg (by decide), if_neg (by decide)] at h ⊢
  split
  · exact ⟨_, rfl⟩
  · rename_i hnone
    rw [hnone] at h
    exact absurd rfl h

end Challenge

/-- A candidate fills its width. -/
theorem PrimeSearch.length_fill (step : List UInt8 → List UInt8) (width : Nat)
    (nonce : List UInt8) : (fill step width nonce).1.length = width := by
  induction width using Nat.strong_induction_on generalizing nonce with
  | h width ih =>
    unfold fill
    split
    · rename_i hzero
      rw [hzero]
      rfl
    · rename_i hpos
      have hrest := ih (width - 32) (by omega) (step nonce)
      simp only [List.length_append, List.length_take, Sha256.length_digest, hrest]
      omega

/-- **What the search finds** is one of its candidates with the bit forced. -/
theorem PrimeSearch.exists_candidate {step : List UInt8 → List UInt8} {width bit count p : Nat}
    {nonce : List UInt8} (h : searchFrom step width [bit] count nonce = some p) :
    ∃ candidate < 2 ^ (8 * width), p = candidate ||| 2 ^ bit := by
  induction count generalizing nonce with
  | zero => cases h
  | succ count ih =>
    rw [searchFrom] at h
    simp only at h
    split at h
    · have hlt := Bytes.ofBigEndian_lt (fill step width nonce).1
      rw [length_fill, show (256 : Nat) = 2 ^ 8 from rfl, ← Nat.pow_mul] at hlt
      refine ⟨_, hlt, ?_⟩
      rw [Option.some_inj] at h
      rw [← h, force, List.foldl_cons, List.foldl_nil, Nat.one_shiftLeft]
    · exact ih h

/-- So no bit is set beyond its width. -/
theorem PrimeSearch.lt_of_searchFrom {step : List UInt8 → List UInt8} {width bit count p : Nat}
    {nonce : List UInt8} (hbit : bit < 8 * width)
    (h : searchFrom step width [bit] count nonce = some p) : p < 2 ^ (8 * width) := by
  obtain ⟨candidate, hlt, rfl⟩ := exists_candidate h
  exact Nat.or_lt_two_pow hlt (Nat.pow_lt_pow_right Nat.one_lt_two hbit)

namespace Challenge

/-- What the search for the challenge finds. -/
theorem exists_searchFrom {p : Nat} (h : prime d x y = .ok p) :
    ∃ count nonce, PrimeSearch.searchFrom Bytes.ripple (bits / 8) [bits - 1] count nonce = some p := by
  unfold prime hashToPrime PrimeSearch.run at h
  repeat' split at h
  all_goals first | cases h; done | skip
  rename_i q hq
  cases h
  exact ⟨_, _, hq⟩

/-- **The challenge has its top bit.** -/
theorem two_pow_le_of_prime {p : Nat} (h : prime d x y = .ok p) : 2 ^ (bits - 1) ≤ p := by
  obtain ⟨count, nonce, hsearch⟩ := exists_searchFrom h
  obtain ⟨candidate, -, rfl⟩ := PrimeSearch.exists_candidate hsearch
  exact Nat.right_le_or

/-- **It has exactly as many bits as it should.** -/
theorem bitLength_of_prime {p : Nat} (h : prime d x y = .ok p) : bitLength p = bits := by
  obtain ⟨count, nonce, hsearch⟩ := exists_searchFrom h
  have hle := two_pow_le_of_prime h
  have hlt := PrimeSearch.lt_of_searchFrom (by decide) hsearch
  have hwidth : 8 * (bits / 8) = bits - 1 + 1 := by decide
  rw [hwidth] at hlt
  have hne : p ≠ 0 := by
    have := Nat.two_pow_pos (bits - 1)
    omega
  have hlog : p.log2 = bits - 1 := (Nat.log2_eq_iff hne).2 ⟨hle, hlt⟩
  rw [bitLength, hlog]
  rfl

/-- So it is larger than any digit. -/
theorem two_pow_width_le_of_prime {p width : Nat} (h : prime d x y = .ok p) (hwidth : width ≤ 63) :
    2 ^ width ≤ p :=
  (Nat.pow_le_pow_right (by omega) (by unfold bits; omega)).trans (two_pow_le_of_prime h)

end Challenge

end VerifiableDelay
