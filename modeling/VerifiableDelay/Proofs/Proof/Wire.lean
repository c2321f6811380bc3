import VerifiableDelay.Proofs.Proof.Chain
/-!
# Chains are one to one with their bytes

A reader takes the links of a chain from the end of its bytes on, and a
writer puts each link after those that follow it in the run. So what is read
as a link, as links or as a body is written as the bytes it was read from
(`Chain.writeLink_of_readLink`, `Chain.writeLinks_of_readLinks`,
`Chain.exists_write_of_decodeBody`), for any discriminant. Where the
discriminant is squarefree what is written is read back as well, and **a
chain has one encoding and an encoding one chain**
(`Chain.wire_is_one_to_one`).
-/

namespace VerifiableDelay

namespace Chain

variable {d : Discriminant} {l : Link} {links : List Link} {depth : Nat} {b : Body} {c : Chain}
variable {inner : List Segment} {last : Segment} {bytes body output : List UInt8}

/-- **A link is written as it was read.** -/
theorem writeLink_of_readLink (hlen : bytes.length = linkSize) (h : readLink d bytes = .ok l) :
    writeLink d l = .ok bytes := by
  simp only [readLink, bind_eq_ok_iff, pure_eq_ok_iff] at h
  obtain ⟨y, hy, proof, hproof, rfl⟩ := h
  obtain ⟨-, -, hywrite⟩ := Form.encode_of_decode hy
  obtain ⟨-, -, hpwrite⟩ := Form.encode_of_decode hproof
  have hlength : (bytes.take lengthSize).length = lengthSize := by
    rw [List.length_take, hlen]
    decide
  have hnumber := Bytes.toBigEndian_ofBigEndian (bytes.take lengthSize)
  rw [hlength] at hnumber
  simp only [writeLink, hnumber, hywrite, hpwrite, bind_eq_ok_iff, pure_eq_ok_iff]
  refine ⟨_, rfl, _, rfl, ?_⟩
  rw [List.append_assoc, List.take_append_drop, List.take_append_drop]

/-- **And so are links**: the first of them was read from the end. -/
theorem writeLinks_of_readLinks (hlen : bytes.length = depth * linkSize)
    (h : readLinks d depth bytes = .ok links) : writeLinks d links = .ok bytes := by
  induction depth generalizing bytes links with
  | zero =>
    cases h
    rw [Nat.zero_mul, List.length_eq_zero_iff] at hlen
    rw [hlen]
    rfl
  | succ depth ih =>
    simp only [readLinks, bind_eq_ok_iff, pure_eq_ok_iff] at h
    obtain ⟨l, hl, rest, hrest, rfl⟩ := h
    rw [Nat.succ_mul] at hlen
    have hlater := ih (by rw [List.length_take]; omega) hrest
    have hfirst := writeLink_of_readLink (by rw [List.length_drop]; omega) hl
    simp only [writeLinks, bind_eq_ok_iff, pure_eq_ok_iff]
    exact ⟨_, hlater, _, hfirst, List.take_append_drop _ _⟩

/-- **What is read as a body** is written as the bytes it was read from: its
proof and its links, as many as a proof can carry. -/
theorem exists_write_of_decodeBody (h : decodeBody d body depth = .ok b) :
    depth ≤ maxDepth ∧ b.links.length = depth ∧
      ∃ proof links, b.proof.encode d = .ok proof ∧ writeLinks d b.links = .ok links ∧
        body = proof ++ links := by
  have hcount := (fits_of_decodeBody h).2.1
  simp only [decodeBody, ite_error_eq_ok_iff, bind_eq_ok_iff, pure_eq_ok_iff] at h
  obtain ⟨hdepth, hlen, proof, hproof, links, hlinks, rfl⟩ := h
  rw [not_not] at hlen
  obtain ⟨-, -, hwrite⟩ := Form.encode_of_decode hproof
  refine ⟨Nat.le_of_not_lt hdepth, hcount, _, _, hwrite, ?_, (List.take_append_drop _ _).symm⟩
  exact writeLinks_of_readLinks (by rw [List.length_drop]; omega) hlinks

/-- **Segments that a body was read of** are encoded as that body. -/
theorem encode_of_decodeBody (h : decodeBody d body depth = .ok b)
    (hinner : inner.map link = b.links) (hproof : last.proof = b.proof)
    (hy : last.y.encode d = .ok output) :
    encode d (inner ++ [last]) = .ok { output, body, depth } := by
  obtain ⟨hdepth, hcount, proof, links, hpwrite, hlwrite, rfl⟩ := exists_write_of_decodeBody h
  have hlength : inner.length = depth := by rw [← hcount, ← hinner, List.length_map]
  rw [encode, List.getLast?_concat]
  simp only [List.dropLast_concat]
  rw [if_neg (by omega), hinner, hproof, hpwrite, hlwrite, hy, hlength]
  rfl

/-- A body is read from no other bytes, and at no other depth. -/
theorem eq_of_decodeBody {body' : List UInt8} {depth' : Nat} (h : decodeBody d body depth = .ok b)
    (h' : decodeBody d body' depth' = .ok b) : body' = body ∧ depth' = depth := by
  obtain ⟨-, hcount, proof, links, hproof, hlinks, rfl⟩ := exists_write_of_decodeBody h
  obtain ⟨-, hcount', proof', links', hproof', hlinks', rfl⟩ := exists_write_of_decodeBody h'
  cases hproof.symm.trans hproof'
  cases hlinks.symm.trans hlinks'
  exact ⟨rfl, hcount'.symm.trans hcount⟩

/-- Nor is a proof. -/
theorem eq_of_decode {bytes' : List UInt8} {depth' : Nat} (h : decode d bytes depth = .ok c)
    (h' : decode d bytes' depth' = .ok c) : bytes' = bytes ∧ depth' = depth := by
  obtain ⟨output, body, rfl, hy, hbody⟩ := exists_append_of_decode h
  obtain ⟨output', body', rfl, hy', hbody'⟩ := exists_append_of_decode h'
  obtain ⟨-, -, hwrite⟩ := Form.encode_of_decode hy
  obtain ⟨-, -, hwrite'⟩ := Form.encode_of_decode hy'
  cases hwrite.symm.trans hwrite'
  obtain ⟨rfl, rfl⟩ := eq_of_decodeBody hbody hbody'
  exact ⟨rfl, rfl⟩

/-- No segments are not encoded, nor more than a proof can carry, whatever
their forms. -/
theorem encode_eq_error {segments : List Segment}
    (h : segments = [] ∨ maxDepth + 1 < segments.length) :
    encode d segments = .error (.segmentCount segments.length) := by
  obtain rfl | ⟨inner, last, rfl⟩ := List.eq_nil_or_concat segments
  · rfl
  have hlong : maxDepth < inner.length := by
    rcases h with h | h
    · simp at h
    · simp only [List.concat_eq_append, List.length_append, List.length_singleton] at h
      omega
  rw [encode, List.concat_eq_append, List.getLast?_concat]
  simp only [List.dropLast_concat]
  rw [if_pos hlong]

/-- **Chains are one to one with their bytes.** For a squarefree discriminant
that forms are encoded for, one segment or as many more as a proof can carry
links are encoded at the depth that they have, whatever their lengths in
words: from the bytes all that is sent of them is read back in the order of
the run, the forms reduced, and so it is from the body without the last form.
No other number of segments is encoded. The other way around, for any
discriminant, whatever segments a proof or a body was read of are encoded as
the bytes and the depth it was read from, and those are the only ones. -/
theorem wire_is_one_to_one (d : Discriminant) :
    (d.bits ≤ Discriminant.maxBits → Squarefree d.value.natAbs → ∀ inner last,
      inner.length ≤ maxDepth → (∀ s ∈ inner, (link s).Fits d) → last.y.Definite d.value →
      last.proof.Definite d.value →
      ∃ proof b, encode d (inner ++ [last]) = .ok proof ∧ proof.depth = inner.length ∧
        b = { proof := last.proof.reduced
              links := inner.map fun s => ⟨s.length, s.y.reduced, s.proof.reduced⟩ } ∧
        decode d proof.bytes proof.depth = .ok { b with y := last.y.reduced } ∧
        decodeBody d proof.body proof.depth = .ok b) ∧
    (∀ segments, segments = [] ∨ maxDepth + 1 < segments.length →
      encode d segments = .error (.segmentCount segments.length)) ∧
    (∀ bytes depth c, decode d bytes depth = .ok c →
      (∀ inner last, inner.map link = c.links → last.y = c.y → last.proof = c.proof →
        ∃ proof, encode d (inner ++ [last]) = .ok proof ∧ proof.bytes = bytes ∧
          proof.depth = depth) ∧
      ∀ bytes' depth', decode d bytes' depth' = .ok c → bytes' = bytes ∧ depth' = depth) ∧
    ∀ body depth b, decodeBody d body depth = .ok b →
      (∀ inner last output, inner.map link = b.links → last.proof = b.proof →
        last.y.encode d = .ok output →
        encode d (inner ++ [last]) = .ok { output, body, depth }) ∧
      ∀ body' depth', decodeBody d body' depth' = .ok b → body' = body ∧ depth' = depth := by
  refine ⟨?_, fun segments h => encode_eq_error h, ?_, ?_⟩
  · intro hbits hsquarefree inner last hdepth hinner hy hproof
    obtain ⟨output, body, -, hlen, hread, hencode, hbody⟩ :=
      exists_encode hbits (Int.squarefree_natAbs.1 hsquarefree) hdepth hinner hy hproof
    rw [List.map_map] at hbody
    exact ⟨_, _, hencode, rfl, rfl, (decode_append hlen).2 ⟨hread, hbody⟩, hbody⟩
  · intro bytes depth c h
    refine ⟨?_, fun bytes' depth' h' => eq_of_decode h h'⟩
    intro inner last hinner hy hproof
    obtain ⟨output, body, rfl, hread, hbody⟩ := exists_append_of_decode h
    obtain ⟨-, -, hwrite⟩ := Form.encode_of_decode hread
    rw [← hy] at hwrite
    exact ⟨_, encode_of_decodeBody hbody hinner hproof hwrite, rfl, rfl⟩
  · intro body depth b h
    refine ⟨?_, fun body' depth' h' => eq_of_decodeBody h h'⟩
    intro inner last output hinner hproof hwrite
    exact encode_of_decodeBody h hinner hproof hwrite

open Form (discriminant839)

/-- A segment as long as a word can say, whose forms are not reduced. -/
def first839 : Segment where
  start := 0
  length := wordCount - 1
  x := ⟨1, 1, 210⟩
  y := ⟨16, 11, 15⟩
  proof := ⟨2, 5, 108⟩

/-- And one that follows it. -/
def second839 : Segment where
  start := 0
  length := 7
  x := ⟨16, 11, 15⟩
  y := ⟨15, -11, 16⟩
  proof := ⟨3, 7, 74⟩

/-- The two are encoded at depth one, and of the first is read back what its
forms reduce to. -/
theorem wire_is_one_to_one_839 :
    ∃ proof, encode discriminant839 [first839, second839] = .ok proof ∧ proof.depth = 1 ∧
      decode discriminant839 proof.bytes 1 = .ok
        { y := ⟨15, -11, 16⟩, proof := ⟨3, 1, 70⟩
          links := [⟨wordCount - 1, ⟨15, -11, 16⟩, ⟨2, 1, 105⟩⟩] } ∧
      encode discriminant839 (List.replicate 65 second839) = .error (.segmentCount 65) := by
  have hprime : Nat.Prime discriminant839.value.natAbs := by norm_num [discriminant839]
  have hfits : ∀ s ∈ [first839], (link s).Fits discriminant839 := by
    intro s hs
    rw [List.mem_singleton.1 hs]
    exact ⟨⟨by decide, by decide⟩, ⟨by decide, by decide⟩, by decide⟩
  obtain ⟨hwrite, hrefuse, -⟩ := wire_is_one_to_one discriminant839
  obtain ⟨proof, b, hencode, hdepth, rfl, hdecode, -⟩ :=
    hwrite (by decide +kernel) hprime.prime.squarefree [first839] second839 (by decide) hfits
      ⟨by decide, by decide⟩ ⟨by decide, by decide⟩
  refine ⟨proof, hencode, hdepth, ?_, hrefuse _ (.inr (by decide))⟩
  rw [hdepth] at hdecode
  refine hdecode.trans ?_
  decide +kernel

end Chain

end VerifiableDelay
