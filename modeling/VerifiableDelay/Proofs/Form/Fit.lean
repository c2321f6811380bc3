import VerifiableDelay.Proofs.Form.Codec
/-!
# Every reduced form has an encoding

The leading coefficient of a reduced form is below the root of a third of
the discriminant, and the cofactor it is compressed to is little above its
root (`natAbs_cofactor_le`). So the numbers of a compressed form fit the
widths that the length of the common factor leaves them (`Fits`), whatever
squares the discriminant has, and **every form of a discriminant that is not
too long is encoded** (`exists_encode`), in a hundred bytes of which those
past the fields are zero (`every_form_fits`).
-/

namespace VerifiableDelay

-- powers of natural numbers are those of the core library
attribute [local instance (high)] instPowNat

/-- A number is below the power its length in bytes names. -/
theorem lt_pow_byteLength (n : Nat) : n < 256 ^ byteLength n := by
  refine (lt_two_pow_bitLength n).trans_le ?_
  rw [show (256 : Nat) = 2 ^ 8 by rfl, ← Nat.pow_mul]
  refine Nat.pow_le_pow_right (by omega) ?_
  unfold byteLength
  omega

/-- And not below the power before that. -/
theorem pow_byteLength_le {n : Nat} (hn : n ≠ 0) : 256 ^ (byteLength n - 1) ≤ n := by
  refine le_trans ?_ (Nat.log2_self_le hn)
  rw [show (256 : Nat) = 2 ^ 8 by rfl, ← Nat.pow_mul]
  refine Nat.pow_le_pow_right (by omega) ?_
  unfold byteLength bitLength
  omega

namespace Compressed

variable {a x : Int} {k : Nat} {c : Compressed}

/-- **The cofactor is little above the root** of the leading coefficient. -/
theorem natAbs_cofactor_le (hx : 0 ≤ x) (hxa : x < a) :
    (-(partialGcd a x (floorSqrt a.natAbs)).coLower).natAbs ≤ floorSqrt a.natAbs + 2 := by
  obtain ⟨m, hm, hs, -, -⟩ := exists_stage hx hxa
  have hbound := hm.s_mul_bound_le
  have hlt := lt_succ_floorSqrt_mul_self a.natAbs
  have habs : (-(partialGcd a x (floorSqrt a.natAbs)).coLower).natAbs = m.s.natAbs := by
    rw [hm.coLower_eq]
    rcases m.sign_eq with h | h <;> rw [h] <;> simp
  rw [habs]
  generalize floorSqrt a.natAbs = l at *
  obtain ⟨n, rfl⟩ := Int.eq_ofNat_of_zero_le (show 0 ≤ a by omega)
  obtain ⟨s, hs'⟩ := Int.eq_ofNat_of_zero_le hs.le
  rw [hs'] at hbound ⊢
  simp only [Int.natAbs_natCast] at hlt ⊢
  have hsl : s * l ≤ n := by exact_mod_cast hbound
  -- at the next number above, the product would pass the next square
  by_contra hgt
  have := Nat.mul_le_mul_right l (show l + 3 ≤ s by omega)
  have hl : 0 < l := by
    by_contra h0
    have h0 : l = 0 := by omega
    subst h0
    simp at hlt
    omega
  have h1 : (l + 3) * l = l * l + 3 * l := by ring
  have h2 : (l + 1) * (l + 1) = l * l + 2 * l + 1 := by ring
  omega

/-- The numbers fit fields of `2 * k` and `k` bytes, less the bytes of the
common factor but one, and of as many bytes as the common factor has. -/
structure Fits (k : Nat) (c : Compressed) : Prop where
  factor_lt : byteLength c.g.natAbs - 1 < k
  leading_lt : c.a.natAbs < 256 ^ (2 * k - (byteLength c.g.natAbs - 1))
  cofactor_lt : c.t.natAbs < 256 ^ (k - (byteLength c.g.natAbs - 1))
  quotient_lt : c.b₀.natAbs < 256 ^ byteLength c.g.natAbs

/-- A quotient by a factor is below a power with the factor's bytes taken
off. -/
theorem ediv_lt_pow_sub {n g j : Nat} (hg : g ≠ 0) (hn : n < 256 ^ j) (hj : byteLength g - 1 ≤ j) :
    n / g < 256 ^ (j - (byteLength g - 1)) := by
  refine Nat.div_lt_of_lt_mul (hn.trans_le ?_)
  calc 256 ^ j = 256 ^ (byteLength g - 1) * 256 ^ (j - (byteLength g - 1)) := by
        rw [← Nat.pow_add, Nat.add_sub_cancel' hj]
    _ ≤ g * 256 ^ (j - (byteLength g - 1)) := Nat.mul_le_mul_right _ (pow_byteLength_le hg)

/-- **Compressing gives numbers that fit**, where the leading coefficient
and the cofactor do. -/
theorem fits_of_lt {b : Int} (hk : 0 < k) (hb : a = b ∨ (b.natAbs : Int) < a) (ha : 0 < a)
    (hlead : a.natAbs < 256 ^ (2 * k)) (hroot : floorSqrt a.natAbs + 2 < 256 ^ k)
    (h : of? a b = some c) : c.Fits k := by
  rcases hb with rfl | hlt
  · rw [of?, if_pos rfl, Option.some_inj] at h
    subst h
    have h0 : byteLength (0 : Int).natAbs = 1 := by decide
    have hpos : ∀ j, 0 < 256 ^ j := fun j => Nat.pow_pos (by omega)
    refine ⟨?_, ?_, ?_, ?_⟩ <;> simp only [h0]
    · exact hk
    · exact hlead
    · exact hpos _
    · exact hpos _
  · rw [of?_eq hlt rfl rfl, Option.some_inj] at h
    subst h
    have hcofactor := natAbs_cofactor_le (by positivity) hlt
    obtain ⟨-, -, -, ht, -⟩ := exists_root (by positivity) hlt
    generalize -(partialGcd a b.natAbs (floorSqrt a.natAbs)).coLower = t at hcofactor ht ⊢
    have hne : Int.gcd a t ≠ 0 := (Int.gcd_pos_of_ne_zero_left _ ha.ne').ne'
    have hle : Int.gcd a t ≤ t.natAbs := Nat.le_of_dvd (by omega) (Int.gcd_dvd_natAbs_right a t)
    have hfactor : byteLength (Int.gcd a t) - 1 < k := by
      refine (Nat.pow_lt_pow_iff_right (by omega : 1 < 256)).1 ?_
      exact (pow_byteLength_le hne).trans_lt (by omega)
    have ha' : (a / (Int.gcd a t : Int)).natAbs = a.natAbs / Int.gcd a t :=
      Int.natAbs_ediv_of_dvd (Int.gcd_dvd_left _ _)
    have ht' : (t / (Int.gcd a t : Int)).natAbs = t.natAbs / Int.gcd a t :=
      Int.natAbs_ediv_of_dvd (Int.gcd_dvd_right _ _)
    refine ⟨by simpa using hfactor, ?_, ?_, ?_⟩
    · simp only [Int.natAbs_natCast, ha']
      exact ediv_lt_pow_sub hne hlead (by omega)
    · simp only [Int.natAbs_natCast, ht']
      exact ediv_lt_pow_sub hne (by omega) (by omega)
    · -- the quotient of the middle coefficient is below the common factor
      have hquot : (b.natAbs / (a / (Int.gcd a t : Int)) : Int).natAbs =
          b.natAbs / (a.natAbs / Int.gcd a t) := by
        obtain ⟨n, rfl⟩ := Int.eq_ofNat_of_zero_le ha.le
        rw [← Int.natCast_ediv, ← Int.natCast_ediv, Int.natAbs_natCast, Int.natAbs_natCast]
      have hsplit := Nat.div_mul_cancel (Int.gcd_dvd_natAbs_left a t)
      have hsmall : b.natAbs / (a.natAbs / Int.gcd a t) < Int.gcd a t := by
        refine Nat.div_lt_of_lt_mul ?_
        rw [hsplit]
        omega
      simp only [hquot, Int.natAbs_natCast]
      exact hsmall.trans (lt_pow_byteLength _)

end Compressed

namespace Codec

/-- Numbers that fit are written. -/
theorem exists_writeFields (bits : Nat) (fields : List (Nat × Int))
    (h : ∀ p ∈ fields, p.2.natAbs < 256 ^ p.1) : ∃ bytes, writeFields bits fields = .ok bytes := by
  induction fields with
  | nil => exact ⟨[], rfl⟩
  | cons p fields ih =>
    obtain ⟨tail, htail⟩ := ih fun q hq => h q (List.mem_cons_of_mem p hq)
    obtain ⟨width, x⟩ := p
    have hfit : Bytes.padded? width x.natAbs = some (Bytes.toLittleEndian width x.natAbs) :=
      if_pos (h _ List.mem_cons_self)
    refine ⟨Bytes.toLittleEndian width x.natAbs ++ tail, ?_⟩
    rw [writeFields, hfit, htail]
    rfl

/-- The numbers of a compressed form fit the fields set aside for them: the
length of the common factor is in range, and no magnitude is longer than its
field. -/
structure FieldsFit (bits : Nat) (c : Compressed) : Prop where
  factorSize_lt : byteLength c.g.natAbs - 1 < roundedBits bits / 32
  lt_width : ∀ p ∈ (fieldWidths (roundedBits bits) (byteLength c.g.natAbs - 1)).zip
    [c.a, c.t, c.g, c.b₀], p.2.natAbs < 256 ^ p.1

variable {bits : Nat} {c : Compressed}

/-- A field of a word of the discriminant is four bytes of the leading
coefficient's, and two of the cofactor's. -/
theorem fieldsFit_of_fits (h : c.Fits ((bits + 31) / 32)) : FieldsFit bits c := by
  obtain ⟨hfactor, hlead, hcofactor, hquotient⟩ := h
  have h16 : roundedBits bits / 16 = 2 * ((bits + 31) / 32) := by
    unfold roundedBits
    omega
  have h32 : roundedBits bits / 32 = (bits + 31) / 32 := by
    unfold roundedBits
    omega
  refine ⟨h32 ▸ hfactor, fun p hp => ?_⟩
  simp only [fieldWidths, h16, h32, Nat.sub_add_cancel (byteLength_pos c.g.natAbs),
    List.zip_cons_cons, List.zip_nil_right, List.mem_cons, List.not_mem_nil, or_false] at hp
  rcases hp with rfl | rfl | rfl | rfl
  · exact hlead
  · exact hcofactor
  · exact lt_pow_byteLength _
  · exact hquotient

/-- **A compressed form that fits is written.** -/
theorem exists_writeCompressed (h : FieldsFit bits c) :
    ∃ bytes, writeCompressed bits c = .ok bytes := by
  obtain ⟨fields, hfields⟩ := exists_writeFields (roundedBits bits) _ h.lt_width
  rw [writeCompressed]
  simp only
  rw [if_neg h.factorSize_lt.not_ge, hfields]
  exact ⟨_, rfl⟩

/-- Past what it pads, padding is zeros. -/
theorem getElem?_padForm {bytes : List UInt8} {i : Nat} (hi : bytes.length ≤ i)
    (hsize : i < formSize) : (padForm bytes)[i]? = some 0 := by
  rw [padForm, List.getElem?_append_right hi, List.getElem?_replicate, if_pos (by omega)]

/-- The fields end within the size of an encoded form, if the discriminant
is not too long. -/
theorem compressedSize_le (hbits : bits ≤ Discriminant.maxBits) :
    compressedSize bits ≤ formSize := by
  unfold compressedSize formSize
  unfold Discriminant.maxBits at hbits
  omega

/-- **What encoding gives** for coefficients whose compressed representation
fits: the size of an encoded form, with zeros past the fields. -/
theorem exists_encodeLeading {a b : Int} (hbits : bits ≤ Discriminant.maxBits)
    (hc : Compressed.of? a b = some c) (hnonneg : 0 ≤ c.a ∧ 0 ≤ c.g ∧ 0 ≤ c.b₀)
    (hfit : FieldsFit bits c) :
    ∃ bytes, encodeLeading bits a b = .ok bytes ∧ bytes.length = formSize ∧
      ∀ i, compressedSize bits ≤ i → i < formSize → bytes[i]? = some 0 := by
  have hsize := compressedSize_le hbits
  -- whatever is written before the padding ends where the fields end
  suffices h : ∃ written, encodeLeading bits a b = .ok (padForm written) ∧
      written.length ≤ compressedSize bits by
    obtain ⟨written, hwritten, hlen⟩ := h
    exact ⟨_, hwritten, length_padForm (hlen.trans hsize),
      fun i hi => getElem?_padForm (hlen.trans hi)⟩
  rw [encodeLeading, if_neg hbits.not_gt]
  split
  · refine ⟨_, rfl, ?_⟩
    unfold compressedSize
    simp
  · obtain ⟨written, hwritten⟩ := exists_writeCompressed hfit
    refine ⟨written, ?_, (readCompressed_of_writeCompressed hbits hnonneg hwritten).1.le⟩
    simp only [hc, hwritten]
    rfl

end Codec

namespace Form

variable {d : Discriminant} {f : Form}

/-- A root of a root of a third of a fourth power is three below its base,
from eleven on. -/
theorem add_three_le_of_pow {l n m : Nat} (hm : 11 ≤ m) (hl : l * l ≤ n) (hn : 3 * (n * n) < m ^ 4) :
    l + 3 ≤ m := by
  by_contra hgt
  obtain ⟨j, rfl⟩ : ∃ j, m = j + 2 := ⟨m - 2, by omega⟩
  have hj : j * j ≤ n := (Nat.mul_self_le_mul_self (by omega)).trans hl
  have hjj : (j * j) * (j * j) ≤ n * n := Nat.mul_self_le_mul_self hj
  have hfour : (j + 2) ^ 4 = ((j + 2) * (j + 2)) * ((j + 2) * (j + 2)) := by ring
  have hsq : 2 * ((j + 2) * (j + 2)) ≤ 3 * (j * j) := by nlinarith
  have := Nat.mul_self_le_mul_self hsq
  rw [hfour] at hn
  generalize (j + 2) * (j + 2) = q at *
  generalize j * j = p at *
  linarith [Nat.zero_le (n * n)]

/-- **The leading coefficient of a reduced form fits**, and so does the root
of it with room for the cofactor. -/
theorem leading_lt_of_isReduced (hf : f.Definite d.value) (hr : f.isReduced = true) :
    f.a.natAbs < 256 ^ (2 * ((d.bits + 31) / 32)) ∧
      floorSqrt f.a.natAbs + 2 < 256 ^ ((d.bits + 31) / 32) := by
  have hsize := three_mul_a_sq_le hf.leading_pos hr
  rw [hf.discriminant_eq] at hsize
  have hbits : 0 < d.bits := d.bits_eq ▸ bitLength_pos _
  have hdisc : d.value.natAbs < (256 ^ ((d.bits + 31) / 32)) ^ 4 := by
    refine (lt_two_pow_bitLength d.value.natAbs).trans_le ?_
    rw [← d.bits_eq, show (256 : Nat) = 2 ^ 8 by rfl, ← Nat.pow_mul, ← Nat.pow_mul]
    exact Nat.pow_le_pow_right (by omega) (by omega)
  have hm : 11 ≤ 256 ^ ((d.bits + 31) / 32) :=
    le_trans (by omega) (Nat.le_self_pow (by omega : (d.bits + 31) / 32 ≠ 0) 256)
  have hn : 3 * (f.a.natAbs * f.a.natAbs) ≤ d.value.natAbs := by
    have := d.value_neg
    zify
    rw [abs_mul_abs_self, abs_of_neg this]
    linarith
  rw [Nat.mul_comm, Nat.pow_mul]
  generalize 256 ^ ((d.bits + 31) / 32) = m at hdisc hm ⊢
  have hlt := hn.trans_lt hdisc
  refine ⟨?_, add_three_le_of_pow hm (floorSqrt_mul_self_le _) hlt⟩
  by_contra hge
  have := Nat.mul_self_le_mul_self (Nat.le_of_not_lt hge)
  have hfour : m ^ 2 * m ^ 2 = m ^ 4 := by ring
  omega

/-- **A reduced form is compressed to numbers that fit.** -/
theorem exists_fieldsFit (hf : f.Definite d.value) (hr : f.isReduced = true) :
    ∃ c, Compressed.of? f.a f.b = some c ∧ (0 ≤ c.a ∧ 0 ≤ c.g ∧ 0 ≤ c.b₀) ∧
      Codec.FieldsFit d.bits c := by
  have ha := hf.leading_pos
  have hb := Compressed.eq_or_natAbs_lt hr
  obtain ⟨hlead, hroot⟩ := leading_lt_of_isReduced hf hr
  have hk : 0 < (d.bits + 31) / 32 := by
    have : 0 < d.bits := d.bits_eq ▸ bitLength_pos _
    omega
  obtain ⟨c, hc⟩ : ∃ c, Compressed.of? f.a f.b = some c := by
    rcases hb with hab | hlt
    · exact ⟨_, if_pos hab⟩
    · exact ⟨_, Compressed.of?_eq hlt rfl rfl⟩
  exact ⟨c, hc, Compressed.of?_nonneg ha hb hc,
    Codec.fieldsFit_of_fits (Compressed.fits_of_lt hk hb ha hlead hroot hc)⟩

/-- What is encoded of a form are the leading coefficients of its reduced
form. -/
theorem encode_eq_encodeLeading (hf : f.Definite d.value) :
    f.encode d = Codec.encodeLeading d.bits f.reduced.a f.reduced.b := by
  have hr := hf.isReduced_reduced d.value_neg
  rw [← encode_reduced hf, encode]
  simp only [hr, if_true]

/-- **Every form has an encoding**, if the discriminant is not too long. -/
theorem exists_encode (hf : f.Definite d.value) (hbits : d.bits ≤ Discriminant.maxBits) :
    ∃ bytes, f.encode d = .ok bytes := by
  obtain ⟨c, hc, hnonneg, hfit⟩ :=
    exists_fieldsFit (hf.reduced d.value_neg) (hf.isReduced_reduced d.value_neg)
  obtain ⟨bytes, hbytes, -⟩ := Codec.exists_encodeLeading hbits hc hnonneg hfit
  exact ⟨bytes, by rw [encode_eq_encodeLeading hf, hbytes]⟩

/-- **No form overflows its encoding**, whatever squares the discriminant
has. The reduced form is compressed to numbers that fit their fields, and if
the discriminant is not too long the encoding is a hundred bytes, zero past
those fields. Longer discriminants have no encodings. -/
theorem every_form_fits (d : Discriminant) (f : Form) :
    (f.Definite d.value → d.bits ≤ Discriminant.maxBits →
      ∃ c bytes, Compressed.of? f.reduced.a f.reduced.b = some c ∧ Codec.FieldsFit d.bits c ∧
        f.encode d = .ok bytes ∧ bytes.length = Codec.formSize ∧
        ∀ i, Codec.compressedSize d.bits ≤ i → i < Codec.formSize → bytes[i]? = some 0) ∧
    (Discriminant.maxBits < d.bits → f.encode d = .error (.overflow d.bits)) := by
  refine ⟨fun hf hbits => ?_, fun hlong => ?_⟩
  · obtain ⟨c, hc, hnonneg, hfit⟩ :=
      exists_fieldsFit (hf.reduced d.value_neg) (hf.isReduced_reduced d.value_neg)
    obtain ⟨bytes, hbytes, hlen, hzero⟩ := Codec.exists_encodeLeading hbits hc hnonneg hfit
    exact ⟨c, bytes, hc, hfit, by rw [encode_eq_encodeLeading hf, hbytes], hlen, hzero⟩
  · rw [encode, Codec.encodeLeading, if_pos hlong]

/-- The discriminant `-207`, nine times another. -/
def discriminant207 : Discriminant := { value := -207, value_neg := by decide, value_mod := by decide }

/-- A discriminant one bit too long. -/
def discriminant1025 : Discriminant :=
  { value := 1 - (2 * (2 ^ 256) ^ 4 : Nat)
    value_neg := by decide +kernel
    value_mod := by decide +kernel }

/-- A form that is not reduced and whose coefficients share the factor three:
it is compressed with a common factor, and encoded. One bit more than there
may be is refused. -/
theorem every_form_fits_207 :
    Definite discriminant207.value ⟨6, 9, 12⟩ ∧ discriminant207.bits ≤ Discriminant.maxBits ∧
      (∃ c bytes, Compressed.of? (reduced ⟨6, 9, 12⟩).a (reduced ⟨6, 9, 12⟩).b = some c ∧
        c = ⟨3, -1, 2, 1, true⟩ ∧ Codec.FieldsFit discriminant207.bits c ∧
        encode discriminant207 ⟨6, 9, 12⟩ = .ok bytes ∧
        bytes = Codec.padForm [3, 0, 3, 0, 1, 2, 1] ∧ bytes.length = Codec.formSize ∧
        ∀ i, Codec.compressedSize discriminant207.bits ≤ i → i < Codec.formSize →
          bytes[i]? = some 0) ∧
      Discriminant.maxBits < discriminant1025.bits ∧
      encode discriminant1025 ⟨1, 1, ((2 ^ 256) ^ 4 / 2 : Nat)⟩ = .error (.overflow discriminant1025.bits) := by
  have hf : Definite discriminant207.value ⟨6, 9, 12⟩ := ⟨by decide, by decide⟩
  have hbits : discriminant207.bits ≤ Discriminant.maxBits := by decide +kernel
  have hlong : Discriminant.maxBits < discriminant1025.bits := by decide +kernel
  have hof : Compressed.of? (reduced ⟨6, 9, 12⟩).a (reduced ⟨6, 9, 12⟩).b =
      some ⟨3, -1, 2, 1, true⟩ := by decide +kernel
  have hencode : encode discriminant207 ⟨6, 9, 12⟩ = .ok (Codec.padForm [3, 0, 3, 0, 1, 2, 1]) := by
    decide +kernel
  obtain ⟨c, bytes, hc, hfit, hbytes, hlen, hzero⟩ :=
    (every_form_fits discriminant207 ⟨6, 9, 12⟩).1 hf hbits
  refine ⟨hf, hbits, ⟨c, bytes, hc, ?_, hfit, hbytes, ?_, hlen, hzero⟩, hlong,
    (every_form_fits discriminant1025 ⟨1, 1, ((2 ^ 256) ^ 4 / 2 : Nat)⟩).2 hlong⟩
  · exact (Option.some_inj.1 (hc.symm.trans hof))
  · exact Except.ok.inj (hbytes.symm.trans hencode)

end Form

end VerifiableDelay
