import VerifiableDelay.Proof.Chain
import VerifiableDelay.Proofs.Form.Fit
/-!
# Chains come back from their bytes

Where the discriminant is squarefree, a form comes back from its encoding
reduced, and so does everything that is made of encoded forms: a link, a
list of links (whose bytes stand in the opposite order), and **a chain**
(`Chain.exists_encode`). Read from any bytes, a chain is its last form and
its body, each read on its own (`Chain.decode_append`), and its forms are
definite.
-/

namespace VerifiableDelay

-- powers of natural numbers are those of the core library
attribute [local instance (high)] instPowNat

variable {d : Discriminant} {f : Form} {l : Link} {links : List Link} {depth : Nat}
variable {inner : List Segment} {last : Segment} {bytes output : List UInt8}

/-- **A definite form has an encoding, and is read from it reduced.** -/
theorem Form.exists_encode_decode (hbits : d.bits ≤ Discriminant.maxBits)
    (hd : Squarefree d.value) (hf : f.Definite d.value) :
    ∃ bytes, f.encode d = .ok bytes ∧ bytes.length = Codec.formSize ∧
      decode d bytes = .ok f.reduced := by
  obtain ⟨bytes, hbytes⟩ := exists_encode hf hbits
  have hdecode := decode_of_encode_definite hd hf hbytes
  exact ⟨bytes, hbytes, length_of_decode hdecode, hdecode⟩

/-- What is read as a form is a reduced one of the discriminant. -/
theorem Form.definite_of_decode (h : decode d bytes = .ok f) :
    f.Definite d.value ∧ f.isReduced = true := by
  obtain ⟨hr, hd, -⟩ := encode_of_decode h
  exact ⟨definite_of_isReduced d.value_neg hr hd, hr⟩

/-- What can be sent of a segment: forms of the discriminant, and a length
that is a word. -/
structure Link.Fits (d : Discriminant) (l : Link) : Prop where
  y : l.y.Definite d.value
  proof : l.proof.Definite d.value
  length_lt : l.length < wordCount

/-- A link as it is read back. -/
def Link.reduced (l : Link) : Link := { l with y := l.y.reduced, proof := l.proof.reduced }

namespace Chain

/-- A length that is a word comes back from its bytes. -/
theorem ofBigEndian_toBigEndian_of_lt {n : Nat} (h : n < wordCount) :
    Bytes.ofBigEndian (Bytes.toBigEndian lengthSize n) = n := by
  rw [Bytes.ofBigEndian_toBigEndian]
  exact Nat.mod_eq_of_lt h

/-- **A link comes back from its bytes.** -/
theorem exists_writeLink (hbits : d.bits ≤ Discriminant.maxBits) (hd : Squarefree d.value)
    (hl : l.Fits d) :
    ∃ bytes, writeLink d l = .ok bytes ∧ bytes.length = linkSize ∧
      readLink d bytes = .ok l.reduced := by
  obtain ⟨y, hy, hylen, hyread⟩ := Form.exists_encode_decode hbits hd hl.y
  obtain ⟨proof, hp, hplen, hpread⟩ := Form.exists_encode_decode hbits hd hl.proof
  refine ⟨Bytes.toBigEndian lengthSize l.length ++ y ++ proof, ?_, ?_, ?_⟩
  · rw [writeLink, hy, hp]
    rfl
  · simp only [List.length_append, Bytes.length_toBigEndian, hylen, hplen, linkSize]
    omega
  · have htake : (Bytes.toBigEndian lengthSize l.length ++ y ++ proof).take lengthSize =
        Bytes.toBigEndian lengthSize l.length := by
      rw [List.append_assoc, List.take_left' (Bytes.length_toBigEndian _ _)]
    have hdrop : (Bytes.toBigEndian lengthSize l.length ++ y ++ proof).drop lengthSize =
        y ++ proof := by
      rw [List.append_assoc, List.drop_left' (Bytes.length_toBigEndian _ _)]
    rw [readLink, htake, hdrop, List.take_left' hylen, List.drop_left' hylen, hyread, hpread,
      ofBigEndian_toBigEndian_of_lt hl.length_lt]
    rfl

/-- **Links come back in their order**, though the last of them is written
first. -/
theorem exists_writeLinks (hbits : d.bits ≤ Discriminant.maxBits) (hd : Squarefree d.value)
    (hl : ∀ l ∈ links, l.Fits d) :
    ∃ bytes, writeLinks d links = .ok bytes ∧ bytes.length = links.length * linkSize ∧
      readLinks d links.length bytes = .ok (links.map Link.reduced) := by
  induction links with
  | nil => exact ⟨[], rfl, by simp, rfl⟩
  | cons l links ih =>
    obtain ⟨later, hlater, hlen, hread⟩ := ih fun l hmem => hl l (List.mem_cons_of_mem _ hmem)
    obtain ⟨written, hwritten, hwlen, hwread⟩ := exists_writeLink hbits hd
      (hl l List.mem_cons_self)
    refine ⟨later ++ written, ?_, ?_, ?_⟩
    · rw [writeLinks, hlater, hwritten]
      rfl
    · rw [List.length_append, hlen, hwlen, List.length_cons, Nat.succ_mul]
    · rw [List.length_cons, readLinks, List.drop_left' hlen, List.take_left' hlen, hwread, hread]
      rfl

/-- What is read as a link can be sent as one. -/
theorem fits_of_readLink (h : readLink d bytes = .ok l) : l.Fits d := by
  simp only [readLink, bind_eq_ok_iff, pure_eq_ok_iff] at h
  obtain ⟨y, hy, proof, hproof, rfl⟩ := h
  refine ⟨(Form.definite_of_decode hy).1, (Form.definite_of_decode hproof).1, ?_⟩
  have hlt := Bytes.ofBigEndian_lt (bytes.take lengthSize)
  have hlen : (bytes.take lengthSize).length ≤ lengthSize := List.length_take_le _ _
  exact hlt.trans_le (Nat.pow_le_pow_right (by decide) hlen)

/-- So can the links that are read, and they are as many as they should. -/
theorem fits_of_readLinks (h : readLinks d depth bytes = .ok links) :
    links.length = depth ∧ ∀ l ∈ links, l.Fits d := by
  induction depth generalizing bytes links with
  | zero =>
    cases h
    simp
  | succ depth ih =>
    simp only [readLinks, bind_eq_ok_iff, pure_eq_ok_iff] at h
    obtain ⟨l, hl, rest, hrest, rfl⟩ := h
    obtain ⟨hlen, hfits⟩ := ih hrest
    refine ⟨by rw [List.length_cons, hlen], fun m hm => ?_⟩
    rcases List.mem_cons.1 hm with rfl | hm
    · exact fits_of_readLink hl
    · exact hfits m hm

/-- Everything that is read as a body is definite. -/
theorem fits_of_decodeBody {b : Body} (h : decodeBody d bytes depth = .ok b) :
    b.proof.Definite d.value ∧ b.links.length = depth ∧ ∀ l ∈ b.links, l.Fits d := by
  unfold decodeBody at h
  split at h
  · cases h
  · split at h
    · cases h
    · simp only [bind_eq_ok_iff, pure_eq_ok_iff] at h
      obtain ⟨proof, hproof, links, hlinks, rfl⟩ := h
      exact ⟨(Form.definite_of_decode hproof).1, fits_of_readLinks hlinks⟩

/-- **A proof is its last form and its body.** -/
theorem decode_append (hlen : output.length = Codec.formSize) {c : Chain} :
    decode d (output ++ bytes) depth = .ok c ↔
      Form.decode d output = .ok c.y ∧ decodeBody d bytes depth = .ok c.toBody := by
  rw [decode, decodeBody]
  by_cases hdepth : maxDepth < depth
  · simp [hdepth]
  · rw [if_neg hdepth, if_neg hdepth]
    by_cases hbytes : bytes.length = Codec.formSize + depth * linkSize
    · have htotal : (output ++ bytes).length = 2 * Codec.formSize + depth * linkSize := by
        rw [List.length_append]
        omega
      rw [if_neg (not_not.2 hbytes), if_neg (not_not.2 htotal), List.take_left' hlen]
      simp only [List.drop_left' hlen, bind_eq_ok_iff, pure_eq_ok_iff]
      constructor
      · rintro ⟨y, hy, proof, hproof, links, hlinks, rfl⟩
        exact ⟨hy, proof, hproof, links, hlinks, rfl⟩
      · rintro ⟨hy, proof, hproof, links, hlinks, hbody⟩
        exact ⟨c.y, hy, proof, hproof, links, hlinks, by rw [hbody]⟩
    · have htotal : (output ++ bytes).length ≠ 2 * Codec.formSize + depth * linkSize := by
        rw [List.length_append]
        omega
      rw [if_pos hbytes, if_pos htotal]
      simp

/-- **Bytes that are read as a proof** are those of a form and of a body. -/
theorem exists_append_of_decode {c : Chain} (h : decode d bytes depth = .ok c) :
    ∃ output body, bytes = output ++ body ∧ Form.decode d output = .ok c.y ∧
      decodeBody d body depth = .ok c.toBody := by
  have hlen : (bytes.take Codec.formSize).length = Codec.formSize := by
    unfold decode at h
    split at h
    · cases h
    · split at h
      · cases h
      · rw [List.length_take]
        omega
  have hsplit := List.take_append_drop Codec.formSize bytes
  rw [← hsplit, decode_append hlen] at h
  exact ⟨_, _, hsplit.symm, h.1, h.2⟩

/-- Everything that is read as a chain is definite. -/
theorem fits_of_decode {c : Chain} (h : decode d bytes depth = .ok c) :
    c.proof.Definite d.value ∧ c.links.length = depth ∧ ∀ l ∈ c.links, l.Fits d := by
  obtain ⟨output, body, -, -, hbody⟩ := exists_append_of_decode h
  exact fits_of_decodeBody hbody

/-- **A chain comes back from its bytes**: its last form and its body. Its
segments are encoded if they are no more than a proof can carry. -/
theorem exists_encode (hbits : d.bits ≤ Discriminant.maxBits) (hd : Squarefree d.value)
    (hdepth : inner.length ≤ maxDepth) (hinner : ∀ s ∈ inner, (link s).Fits d)
    (hy : last.y.Definite d.value) (hproof : last.proof.Definite d.value) :
    ∃ output body, last.y.encode d = .ok output ∧ output.length = Codec.formSize ∧
      Form.decode d output = .ok last.y.reduced ∧
      encode d (inner ++ [last]) = .ok { output, body, depth := inner.length } ∧
      decodeBody d body inner.length =
        .ok { proof := last.proof.reduced, links := (inner.map link).map Link.reduced } := by
  obtain ⟨output, hout, houtlen, houtread⟩ := Form.exists_encode_decode hbits hd hy
  obtain ⟨proof, hp, hplen, hpread⟩ := Form.exists_encode_decode hbits hd hproof
  have hlinks : ∀ l ∈ inner.map link, l.Fits d := by simpa using hinner
  obtain ⟨written, hw, hwlen, hwread⟩ := exists_writeLinks hbits hd hlinks
  rw [List.length_map] at hwlen hwread
  have hbody : (proof ++ written).length = Codec.formSize + inner.length * linkSize := by
    rw [List.length_append, hplen, hwlen]
  refine ⟨output, proof ++ written, hout, houtlen, houtread, ?_, ?_⟩
  · rw [encode, List.getLast?_concat]
    simp only [List.dropLast_concat]
    rw [if_neg (by omega), hp, hw, hout]
    rfl
  · rw [decodeBody, if_neg (by omega), if_neg (by omega), List.take_left' hplen,
      List.drop_left' hplen, hpread, hwread]
    rfl

/-- One segment is encoded as its last form and its proof. -/
theorem encode_singleton_eq_ok_iff {s : Segment} {p : Proof} :
    encode d [s] = .ok p ↔ ∃ output body, s.y.encode d = .ok output ∧
      s.proof.encode d = .ok body ∧ p = { output, body, depth := 0 } := by
  simp only [encode, List.getLast?_singleton, List.dropLast_singleton, List.length_nil,
    Nat.not_lt_zero, if_false, List.map_nil, writeLinks, ofFormResult_eq_ok_iff, bind_eq_ok_iff,
    pure_eq_ok_iff]
  constructor
  · rintro ⟨body, hbody, _, ⟨rfl⟩, output, houtput, rfl⟩
    exact ⟨output, body, houtput, hbody, by rw [List.append_nil]⟩
  · rintro ⟨output, body, houtput, hbody, rfl⟩
    exact ⟨body, hbody, _, rfl, output, houtput, by rw [List.append_nil]⟩

/-! ## What is sent is reduced -/

/-- A link is written as it is read back. -/
theorem writeLink_reduced (hl : l.Fits d) : writeLink d l.reduced = writeLink d l := by
  simp only [writeLink, Link.reduced, Form.encode_reduced hl.y, Form.encode_reduced hl.proof]

theorem writeLinks_reduced (hl : ∀ l ∈ links, l.Fits d) :
    writeLinks d (links.map Link.reduced) = writeLinks d links := by
  induction links with
  | nil => rfl
  | cons l links ih =>
    rw [List.map_cons, writeLinks, writeLinks, writeLink_reduced (hl l List.mem_cons_self),
      ih fun l hmem => hl l (List.mem_cons_of_mem _ hmem)]

/-- **Segments that send the same are encoded alike**, wherever they start
and whatever forms stand for those that are sent. -/
theorem encode_congr {segments others : List Segment} (hs : ∀ s ∈ segments, (link s).Fits d)
    (ht : ∀ t ∈ others, (link t).Fits d)
    (h : segments.map (fun s => (link s).reduced) = others.map fun t => (link t).reduced) :
    encode d segments = encode d others := by
  obtain rfl | ⟨inner, last, rfl⟩ := List.eq_nil_or_concat segments
  · obtain rfl := List.map_eq_nil_iff.1 h.symm
    rfl
  obtain rfl | ⟨inner', last', rfl⟩ := List.eq_nil_or_concat others
  · simp at h
  simp only [List.concat_eq_append, List.map_append, List.map_cons, List.map_nil,
    List.forall_mem_append, List.forall_mem_singleton] at hs ht h ⊢
  obtain ⟨hinner, hlast⟩ := List.append_inj' h rfl
  have hlength : inner.length = inner'.length := by simpa using congrArg List.length hinner
  have hlinks : writeLinks d (inner.map link) = writeLinks d (inner'.map link) := by
    have hfits : ∀ l ∈ inner.map link, l.Fits d := by simpa using hs.1
    have hfits' : ∀ l ∈ inner'.map link, l.Fits d := by simpa using ht.1
    rw [← writeLinks_reduced hfits, ← writeLinks_reduced hfits', List.map_map, List.map_map]
    exact congrArg (writeLinks d) hinner
  simp only [List.cons.injEq, and_true, Link.reduced, link, Link.mk.injEq] at hlast
  have hy := Form.encode_congr hs.2.y ht.2.y hlast.2.1
  have hproof := Form.encode_congr hs.2.proof ht.2.proof hlast.2.2
  simp only [link] at hy hproof
  simp only [encode, List.getLast?_concat, List.dropLast_concat, hlength, hlinks, hy, hproof,
    List.length_append, List.length_singleton]

end Chain

end VerifiableDelay
