import VerifiableDelay.Error
import VerifiableDelay.Form.Codec
import VerifiableDelay.Proofs.Form.Compressed
import Mathlib.Data.Nat.Squarefree
import Mathlib.Tactic.NormNum.Prime
/-!
# The encoding of forms is one to one

Reading accepts what writing gives only, so what is read encodes to the
bytes it was read from. The other way around the fields of a compressed
form come back from their bytes, as numbers that fit their widths do, and
the form comes back from its compressed representation, where the
discriminant is squarefree: **decoding undoes encoding**
(`encoding_is_one_to_one`).
-/

namespace VerifiableDelay

-- powers of natural numbers are those of the core library
attribute [local instance (high)] instPowNat

namespace Codec

variable {bits n width : Nat} {bytes : List UInt8} {c : Compressed}

/-- A number that fits its width comes back from its bytes. -/
theorem ofLittleEndian_of_padded? (h : Bytes.padded? width n = some bytes) :
    bytes.length = width ∧ Bytes.ofLittleEndian bytes = n := by
  unfold Bytes.padded? at h
  split at h
  · rename_i hlt
    rw [Option.some_inj] at h
    subst h
    refine ⟨Bytes.length_toLittleEndian width n, ?_⟩
    rw [Bytes.ofLittleEndian_toLittleEndian, Nat.mod_eq_of_lt hlt]
  · cases h

/-- **Magnitudes come back from their fields**, whatever follows them. -/
theorem readFields_of_writeFields {widths : List Nat} {xs : List Int} (rest : List UInt8)
    (hlen : widths.length = xs.length) (h : writeFields bits (widths.zip xs) = .ok bytes) :
    bytes.length = widths.sum ∧
      readFields widths (bytes ++ rest) = .ok (xs.map Int.natAbs) := by
  induction widths generalizing xs bytes with
  | nil =>
    rw [List.zip_nil_left, writeFields] at h
    cases h
    cases xs with
    | nil => exact ⟨rfl, rfl⟩
    | cons x xs => cases hlen
  | cons width widths ih =>
    cases xs with
    | nil => cases hlen
    | cons x xs =>
      rw [List.zip_cons_cons, writeFields] at h
      cases hfield : Bytes.padded? width x.natAbs with
      | none =>
        rw [hfield] at h
        cases h
      | some field =>
        cases htail : writeFields bits (widths.zip xs) with
        | error e =>
          rw [hfield, htail] at h
          cases h
        | ok tail =>
          rw [hfield, htail] at h
          cases h
          obtain ⟨hlength, hvalue⟩ := ofLittleEndian_of_padded? hfield
          obtain ⟨hsum, hread⟩ := ih (Nat.succ.inj hlen) htail
          refine ⟨by rw [List.length_append, List.sum_cons, hlength, hsum], ?_⟩
          have htake : (field ++ tail ++ rest).take width = field := by
            rw [List.append_assoc, ← hlength, List.take_left]
          have hdrop : (field ++ tail ++ rest).drop width = tail ++ rest := by
            rw [List.append_assoc, ← hlength, List.drop_left]
          rw [readFields, if_neg (by simp only [List.length_append]; omega), htake, hdrop, hread,
            hvalue]
          rfl

/-- The flags of the two signs are read back, and no other flag is set. -/
theorem hasFlag_signs (negative cofactor : Bool) :
    hasFlag (flagIf negativeFlag negative ||| flagIf cofactorFlag cofactor) negativeFlag = negative ∧
      hasFlag (flagIf negativeFlag negative ||| flagIf cofactorFlag cofactor) cofactorFlag =
        cofactor ∧
      hasFlag (flagIf negativeFlag negative ||| flagIf cofactorFlag cofactor) identityFlag = false ∧
      hasFlag (flagIf negativeFlag negative ||| flagIf cofactorFlag cofactor) generatorFlag =
        false := by
  revert negative cofactor
  decide

/-- **A compressed form comes back from its bytes**, whatever follows them;
its flags are not those of the two forms that are a flag alone, and it takes
the size that is set aside for it. -/
theorem readCompressed_of_writeCompressed (hbits : bits ≤ Discriminant.maxBits)
    (hnonneg : 0 ≤ c.a ∧ 0 ≤ c.g ∧ 0 ≤ c.b₀) (h : writeCompressed bits c = .ok bytes) :
    bytes.length = compressedSize bits ∧
      ∃ flags factorSize fields, bytes = flags :: factorSize :: fields ∧
        hasFlag flags identityFlag = false ∧ hasFlag flags generatorFlag = false ∧
        ∀ rest, readCompressed bits flags factorSize (fields ++ rest) = .ok c := by
  rw [writeCompressed] at h
  simp only at h
  split at h
  · cases h
  · rename_i hfactor
    generalize hsize : byteLength c.g.natAbs - 1 = factorSize at h hfactor
    cases hfields : writeFields (roundedBits bits)
        ((fieldWidths (roundedBits bits) factorSize).zip [c.a, c.t, c.g, c.b₀]) with
    | error e =>
      rw [hfields] at h
      cases h
    | ok fields =>
      rw [hfields] at h
      cases h
      have hbyte : (UInt8.ofNat factorSize).toNat = factorSize := by
        rw [UInt8.toNat_ofNat']
        refine Nat.mod_eq_of_lt ?_
        unfold roundedBits at hfactor
        unfold Discriminant.maxBits at hbits
        omega
      obtain ⟨hneg, hcof, hid, hgen⟩ := hasFlag_signs c.negative (c.t < 0)
      refine ⟨?_, _, _, fields, rfl, hid, hgen, fun rest => ?_⟩
      · have hsum := (readFields_of_writeFields [] rfl hfields).1
        simp only [fieldWidths, List.sum_cons, List.sum_nil] at hsum
        simp only [List.length_cons, hsum]
        unfold roundedBits compressedSize at *
        omega
      · have hread := (readFields_of_writeFields rest rfl hfields).2
        rw [readCompressed, hbyte, if_neg hfactor, hread, hneg, hcof]
        obtain ⟨ha, hg, hb⟩ := hnonneg
        have ht : (if decide (c.t < 0) = true then -(c.t.natAbs : Int) else c.t.natAbs) = c.t := by
          simp only [decide_eq_true_eq]
          split <;> omega
        simp only [List.map_cons, List.map_nil, bind, Except.bind, pure, Except.pure, ht,
          Int.natAbs_of_nonneg ha, Int.natAbs_of_nonneg hg, Int.natAbs_of_nonneg hb]

/-- Padding reaches the size of an encoded form. -/
theorem length_padForm (h : bytes.length ≤ formSize) : (padForm bytes).length = formSize := by
  rw [padForm, List.length_append, List.length_replicate]
  omega

/-- **What is read from the encoding of leading coefficients** is what their
compressed representation expands to, where they have no flag of their
own. -/
theorem readLeading_of_encodeLeading (d : Int) {a b : Int} (ha : 0 < a)
    (hb : a = b ∨ (b.natAbs : Int) < a) (h : encodeLeading bits a b = .ok bytes) :
    bits ≤ Discriminant.maxBits ∧ bytes.length = formSize ∧
      (b = 1 ∧ readLeading d bits bytes = .ok (a, b) ∨
        ∀ c, Compressed.of? a b = some c → readLeading d bits bytes = c.expand d) := by
  rw [encodeLeading] at h
  split at h
  · cases h
  rename_i hbits
  refine ⟨Nat.le_of_not_lt hbits, ?_⟩
  split at h
  · rename_i hone
    cases h
    obtain ⟨rfl, ha2⟩ := hone
    refine ⟨length_padForm (by simp [formSize]), .inl ⟨rfl, ?_⟩⟩
    have : a = 1 ∨ a = 2 := by omega
    rcases this with rfl | rfl <;> rfl
  · cases hc : Compressed.of? a b with
    | none =>
      rw [hc] at h
      cases h
    | some c =>
      rw [hc] at h
      cases hwrite : writeCompressed bits c with
      | error e =>
        simp only [hwrite] at h
        cases h
      | ok written =>
        simp only [hwrite] at h
        cases h
        obtain ⟨hlen, flags, factorSize, fields, rfl, hid, hgen, hread⟩ :=
          readCompressed_of_writeCompressed (by omega) (Compressed.of?_nonneg ha hb hc) hwrite
        refine ⟨length_padForm ?_, .inr ?_⟩
        · rw [hlen]
          unfold compressedSize formSize
          unfold Discriminant.maxBits at hbits
          omega
        · intro c' hc'
          cases hc'
          rw [padForm, List.cons_append, List.cons_append, readLeading, hgen, hid, hread]
          rfl

/-- **What is decoded was read, and encodes to the bytes it was read
from.** -/
theorem decodeLeading_eq_ok_iff {d a b : Int} :
    decodeLeading d bits bytes = .ok (a, b) ↔
      bytes.length = formSize ∧ bits ≤ Discriminant.maxBits ∧
        readLeading d bits bytes = .ok (a, b) ∧ encodeLeading bits a b = .ok bytes := by
  simp only [decodeLeading, ite_error_eq_ok_iff, bind_eq_ok_iff, not_not, not_lt]
  refine and_congr_right fun _ => and_congr_right fun _ => ?_
  constructor
  · rintro ⟨⟨a', b'⟩, hread, hcanonical⟩
    split at hcanonical
    · cases hcanonical
    · rename_i canonical hencode
      split at hcanonical
      · rename_i heq
        cases hcanonical
        rw [hencode, heq]
        exact ⟨hread, rfl⟩
      · cases hcanonical
  · rintro ⟨hread, hencode⟩
    refine ⟨(a, b), hread, ?_⟩
    simp only [hencode, if_true]

/-- **Leading coefficients come back from their encoding**, if they come
back from their compressed representation. -/
theorem decodeLeading_of_encodeLeading {d a b : Int} (ha : 0 < a)
    (hb : a = b ∨ (b.natAbs : Int) < a)
    (hexpand : ∃ c, Compressed.of? a b = some c ∧ c.expand d = .ok (a, b))
    (h : encodeLeading bits a b = .ok bytes) : decodeLeading d bits bytes = .ok (a, b) := by
  obtain ⟨hbits, hlen, hread⟩ := readLeading_of_encodeLeading d ha hb h
  have hread : readLeading d bits bytes = .ok (a, b) := by
    rcases hread with ⟨-, hread⟩ | hread
    · exact hread
    · obtain ⟨c, hc, hexp⟩ := hexpand
      rw [hread c hc, hexp]
  exact decodeLeading_eq_ok_iff.2 ⟨hlen, hbits, hread, h⟩

end Codec

namespace Form

variable {d : Discriminant} {f : Form} {bytes : List UInt8}

/-- What is read is a reduced form of the discriminant, and begins with what
was decoded. -/
theorem decodeLeading_of_decode (h : decode d bytes = .ok f) :
    f.isReduced = true ∧ f.discriminant = d.value ∧
      Codec.decodeLeading d.value d.bits bytes = .ok (f.a, f.b) := by
  simp only [decode, bind_eq_ok_iff, ite_error_eq_ok_iff, not_not] at h
  obtain ⟨⟨a, b⟩, hleading, hmod, hform⟩ := h
  split at hform
  · rename_i hreduced
    cases hform
    have hprod := Int.mul_ediv_cancel' (Int.dvd_of_emod_eq_zero hmod)
    refine ⟨hreduced, ?_, hleading⟩
    simp only [discriminant]
    linarith
  · cases hform

/-- **What is read is a reduced form of the discriminant**, and encodes to
the bytes it was read from. -/
theorem encode_of_decode (h : decode d bytes = .ok f) :
    f.isReduced = true ∧ f.discriminant = d.value ∧ f.encode d = .ok bytes := by
  obtain ⟨hr, hd, hleading⟩ := decodeLeading_of_decode h
  refine ⟨hr, hd, ?_⟩
  rw [encode]
  simp only [hr, if_true]
  exact (Codec.decodeLeading_eq_ok_iff.1 hleading).2.2.2

/-- What is read has the size of an encoded form. -/
theorem length_of_decode (h : decode d bytes = .ok f) : bytes.length = Codec.formSize := by
  obtain ⟨-, -, hleading⟩ := decodeLeading_of_decode h
  exact (Codec.decodeLeading_eq_ok_iff.1 hleading).1

/-- **A reduced form comes back from its encoding**, if its leading
coefficients do from their compressed representation. -/
theorem decode_of_encode (hf : f.Definite d.value) (hr : f.isReduced = true)
    (hexpand : ∃ c, Compressed.of? f.a f.b = some c ∧ c.expand d.value = .ok (f.a, f.b))
    (h : f.encode d = .ok bytes) : decode d bytes = .ok f := by
  rw [encode] at h
  simp only [hr, if_true] at h
  have hleading := Codec.decodeLeading_of_encodeLeading hf.leading_pos
    (Compressed.eq_or_natAbs_lt hr) hexpand h
  have hprod : f.b * f.b - d.value = 4 * f.a * f.c := by
    rw [← hf.discriminant_eq, discriminant]
    ring
  have ha : 4 * f.a ≠ 0 := mul_ne_zero four_ne_zero hf.leading_pos.ne'
  rw [decode, hleading]
  simp only [bind, Except.bind]
  rw [if_neg (by rw [hprod, Int.mul_emod_right]; exact not_not.2 rfl), hprod,
    Int.mul_ediv_cancel_left _ ha, if_pos hr]

/-- What is encoded of a form is its reduced form. -/
theorem encode_reduced (hf : f.Definite d.value) : f.reduced.encode d = f.encode d := by
  have hr := hf.isReduced_reduced d.value_neg
  by_cases hf' : f.isReduced = true
  · rw [reduced_of_isReduced hf.leading_pos hf']
  · unfold encode
    simp only [hr, hf', if_true, if_false, Bool.false_eq_true]

/-- So forms that reduce to the same are encoded alike. -/
theorem encode_congr {g : Form} (hf : f.Definite d.value) (hg : g.Definite d.value)
    (h : f.reduced = g.reduced) : f.encode d = g.encode d := by
  rw [← encode_reduced hf, h, encode_reduced hg]

/-- **The reduced form comes back from the encoding**, where the
discriminant is squarefree. -/
theorem decode_of_encode_definite (hd : Squarefree d.value) (hf : f.Definite d.value)
    (h : f.encode d = .ok bytes) : decode d bytes = .ok f.reduced := by
  have hr := hf.isReduced_reduced d.value_neg
  rw [← encode_reduced hf] at h
  exact decode_of_encode (hf.reduced d.value_neg) hr
    (Compressed.exists_of?_expand (hf.reduced d.value_neg) hr hd) h

/-- **Reading and writing are inverse to each other.** What is read is a
reduced form of the discriminant, and is written as the bytes it was read
from. Where the discriminant is squarefree every reduced form comes back
from its compressed representation, and from its bytes if it has any. -/
theorem encoding_is_one_to_one (d : Discriminant) :
    (∀ bytes f, decode d bytes = .ok f →
      f.isReduced = true ∧ f.discriminant = d.value ∧ f.encode d = .ok bytes) ∧
    (Squarefree d.value.natAbs → ∀ f : Form, f.isReduced = true → f.discriminant = d.value →
      (∃ c, Compressed.of? f.a f.b = some c ∧ c.expand d.value = .ok (f.a, f.b)) ∧
      ∀ bytes, f.encode d = .ok bytes → decode d bytes = .ok f) := by
  refine ⟨fun bytes f h => encode_of_decode h, fun hd f hr hdisc => ?_⟩
  have hf := definite_of_isReduced d.value_neg hr hdisc
  have hexpand := Compressed.exists_of?_expand hf hr (Int.squarefree_natAbs.1 hd)
  exact ⟨hexpand, fun bytes h => decode_of_encode hf hr hexpand h⟩

/-- The discriminant `-839`. -/
def discriminant839 : Discriminant := { value := -839, value_neg := by decide, value_mod := by decide }

/-- The bytes of `(15, -11, 16)`, whose cofactor shares the factor three with
the leading coefficient. -/
def encoded839 : List UInt8 := Codec.padForm [1, 0, 5, 0, 1, 3, 2]

/-- A form with a negative middle coefficient and a common factor, from its
bytes. -/
theorem encoding_is_one_to_one_839 :
    Squarefree discriminant839.value.natAbs ∧ isReduced ⟨15, -11, 16⟩ = true ∧
      discriminant ⟨15, -11, 16⟩ = discriminant839.value ∧
      encode discriminant839 ⟨15, -11, 16⟩ = .ok encoded839 ∧
      decode discriminant839 encoded839 = .ok ⟨15, -11, 16⟩ := by
  have hprime : Nat.Prime discriminant839.value.natAbs := by norm_num [discriminant839]
  have hsquarefree := hprime.prime.squarefree
  have hencode : encode discriminant839 ⟨15, -11, 16⟩ = .ok encoded839 := by decide +kernel
  exact ⟨hsquarefree, by decide, by decide, hencode,
    ((encoding_is_one_to_one discriminant839).2 hsquarefree ⟨15, -11, 16⟩ (by decide)
      (by decide)).2 _ hencode⟩

end Form

end VerifiableDelay
