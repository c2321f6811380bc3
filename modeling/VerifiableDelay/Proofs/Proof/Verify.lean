import VerifiableDelay.Proofs.Proof.Alone
import VerifiableDelay.Proofs.Proof.Chain
/-!
# What the verifier accepts

A verifier that is given the challenge and finds the last form, and one that
is given the last form and finds the challenge, ask for the same: the last
form is where the proof leads under the challenge of the two
(`Verify.segment_eq_true_iff`, `Verify.recover_eq_some_iff`). Taking the
links of a chain one after another from what is left of its length comes to
this, that **each link shows what it claims and their lengths add up to no
more than the chain's** (`Verify.links_eq_some_iff`). From these follow what
a chain is accepted for, that what is encoded of segments proven each on its
own is accepted, and that a chain is accepted with its last form just if
that form is recovered without it.
-/

namespace VerifiableDelay

open Form

variable {d : Discriminant} {x y z proof : Form} {iterations left depth b : Nat}
variable {l : Link} {ls : List Link} {start bytes output : List UInt8}

/-- What reduces to a definite form is one. -/
theorem Form.definite_of_reduced {D : Int} {f : Form} (hD : D < 0) (h : f.reduced.Definite D) :
    f.Definite D :=
  h.of_equivalent hD (equivalent_reduced f).symm

namespace Verify

/-! ## Segments -/

/-- Where a proof leads depends on what its forms reduce to. -/
theorem target_reduced (hd : Squarefree d.value) (hx : x.Definite d.value)
    (hproof : proof.Definite d.value) (challenge iterations : Nat) :
    target d x.reduced proof.reduced challenge iterations =
      target d x proof challenge iterations :=
  target_congr (Represents.of_squarefree hd hx).reduced (.of_squarefree hd hx)
    (Represents.of_squarefree hd hproof).reduced (.of_squarefree hd hproof) challenge iterations

/-- **A proof is accepted** just if it leads to the last form under the
challenge. -/
theorem segment_eq_true_iff :
    segment d x y proof iterations = .ok true ↔
      ∃ b, Challenge.prime d x y = .ok b ∧ target d x proof b iterations = y.reduced := by
  simp only [segment, bind_eq_ok_iff, pure_eq_ok_iff, beq_iff_eq]

/-- **A form is recovered** just if the proof leads to it and the challenge
is that of the two. -/
theorem recover_eq_some_iff :
    recover d x proof b iterations = .ok (some y) ↔
      y = target d x proof b iterations ∧ Challenge.prime d x y = .ok b := by
  rw [recover]
  by_cases hb : bitLength b = Challenge.bits
  · rw [if_neg (not_not.2 hb)]
    simp only [bind_eq_ok_iff, pure_eq_ok_iff]
    constructor
    · rintro ⟨p, hp, hsome⟩
      split at hsome
      · rename_i heq
        obtain rfl := Option.some_inj.1 hsome
        rw [heq] at hp
        exact ⟨rfl, hp⟩
      · exact absurd hsome (by simp)
    · rintro ⟨rfl, hp⟩
      refine ⟨b, hp, ?_⟩
      rw [if_pos (Eq.refl b)]
  · rw [if_pos hb]
    refine ⟨fun h => (by cases h), fun h => ?_⟩
    exact absurd (Challenge.bitLength_of_prime h.2) hb

/-- Where the forms are definite, it does not matter whether they are
reduced. -/
theorem segment_reduced (hd : Squarefree d.value) (hx : x.Definite d.value)
    (hy : y.Definite d.value) (hproof : proof.Definite d.value) (iterations : Nat) :
    segment d x.reduced y.reduced proof.reduced iterations = segment d x y proof iterations := by
  rw [segment, segment, Challenge.prime_reduced_right _ hy, Challenge.prime_reduced_left hx,
    hy.reduced_reduced d.value_neg]
  simp only [target_reduced hd hx hproof]

/-- What is accepted ends at a definite form. -/
theorem definite_of_segment (hd : Squarefree d.value) (hx : x.Definite d.value)
    (hproof : proof.Definite d.value) (h : segment d x y proof iterations = .ok true) :
    y.Definite d.value := by
  obtain ⟨b, -, htarget⟩ := segment_eq_true_iff.1 h
  refine definite_of_reduced d.value_neg ?_
  rw [← htarget]
  exact (represents_target (.of_squarefree hd hx) (.of_squarefree hd hproof) b iterations).definite

/-- A challenge is longer than few squarings need: their proof is the neutral
form. -/
theorem segment_identity {c : FormClass d} (hx : Represents d x c)
    (hy : Represents d y (c ^ 2 ^ iterations)) (hfew : iterations < Challenge.bits - 1)
    (hchallenge : Challenge.prime d x y ≠ .error .noPrime) :
    segment d x y (identity d) iterations = .ok true := by
  obtain ⟨modulus, hmodulus⟩ := Challenge.exists_prime hchallenge
  have hquotient : 2 ^ iterations / modulus = 0 :=
    Nat.div_eq_of_lt ((Nat.pow_lt_pow_right (by decide) hfew).trans_le
      (Challenge.two_pow_le_of_prime hmodulus))
  refine segment_of_represents hx hy ?_ hmodulus
  rw [hquotient, pow_zero]
  exact .identity d

/-! ## Links -/

/-- **The links show what they claim**, each from where the one before it
ended and the first from `x`. -/
def Shown (d : Discriminant) (x : Form) (ls : List Link) : Prop :=
  ∀ (i : Nat) (z : Form) (l : Link), (x :: ls.map Link.y)[i]? = some z → ls[i]? = some l →
    segment d z l.y l.proof l.length = .ok true

theorem shown_nil : Shown d x [] := by
  intro i z l _ hl
  cases hl

theorem shown_cons :
    Shown d x (l :: ls) ↔ segment d x l.y l.proof l.length = .ok true ∧ Shown d l.y ls := by
  constructor
  · intro h
    exact ⟨h 0 x l rfl rfl, fun i z m hz hm => h (i + 1) z m hz hm⟩
  · rintro ⟨hfirst, hrest⟩ i z m hz hm
    cases i with
    | zero =>
      cases hz
      cases hm
      exact hfirst
    | succ i => exact hrest i z m hz hm

/-- **The links are accepted** just if they show what they claim and are no
longer together than the chain. The last segment starts at the last of their
forms, and what they leave of the length is its own. -/
theorem links_eq_some_iff :
    links d x ls iterations = .ok (some (z, left)) ↔
      Shown d x ls ∧ (ls.map Link.length).sum ≤ iterations ∧
        z = (ls.map Link.y).getLastD x ∧ left = iterations - (ls.map Link.length).sum := by
  induction ls generalizing x iterations with
  | nil => simp [links, shown_nil, eq_comm]
  | cons l ls ih =>
    rw [links, shown_cons, List.map_cons, List.map_cons, List.sum_cons, List.getLastD_cons]
    by_cases hlt : iterations < l.length
    · rw [if_pos hlt]
      refine ⟨fun h => (by cases h), fun h => ?_⟩
      have := h.2.1
      omega
    · rw [if_neg hlt, bind_eq_ok_iff]
      constructor
      · rintro ⟨accepted, hsegment, hrest⟩
        cases accepted with
        | false => cases hrest
        | true =>
          rw [if_pos rfl, ih] at hrest
          obtain ⟨hshown, hsum, hz, hleft⟩ := hrest
          exact ⟨⟨hsegment, hshown⟩, by omega, hz, by omega⟩
      · rintro ⟨⟨hsegment, hshown⟩, hsum, hz, hleft⟩
        refine ⟨true, hsegment, ?_⟩
        rw [if_pos rfl, ih]
        exact ⟨hshown, by omega, hz, by omega⟩

/-- Where the last segment starts is found in the same place if the links are
taken on trust. -/
theorem lastStart_eq_some_iff :
    lastStart x ls iterations = some z ↔
      (ls.map Link.length).sum ≤ iterations ∧ z = (ls.map Link.y).getLastD x := by
  induction ls generalizing x iterations with
  | nil => simp [lastStart, eq_comm]
  | cons l ls ih =>
    rw [lastStart, List.map_cons, List.map_cons, List.sum_cons, List.getLastD_cons]
    by_cases hlt : iterations < l.length
    · rw [if_pos hlt]
      refine ⟨fun h => (by cases h), fun h => ?_⟩
      omega
    · rw [if_neg hlt, ih]
      refine and_congr_left fun _ => ?_
      omega

/-! ## Segments in a row -/

/-- The segments can be sent, and each is proven on its own. -/
structure Accepted (d : Discriminant) (s : Segment) : Prop where
  x : s.x.Definite d.value
  y : s.y.Definite d.value
  proof : s.proof.Definite d.value
  length_lt : s.length < wordCount
  verified : segment d s.x s.y s.proof s.length = .ok true

/-- **The segments lead on from `x`**: each starts at a form that reduces to
what the one before it ended at does. -/
def Leads : Form → List Segment → Prop
  | _, [] => True
  | x, s :: rest => s.x.reduced = x.reduced ∧ Leads s.y rest

variable {s last : Segment} {inner : List Segment}

theorem leads_append : ∀ (x : Form) (inner rest : List Segment),
    Leads x (inner ++ rest) ↔ Leads x inner ∧ Leads ((inner.map Segment.y).getLastD x) rest
  | x, [], rest => by simp [Leads]
  | x, s :: inner, rest => by
    rw [List.cons_append, Leads, Leads, leads_append s.y inner rest, List.map_cons,
      List.getLastD_cons, and_assoc]

/-- What was accepted of a segment is accepted of what is read of it. -/
theorem Accepted.segment_reduced (h : Accepted d s) (hd : Squarefree d.value)
    (hx : s.x.reduced = x.reduced) :
    segment d x.reduced s.y.reduced s.proof.reduced s.length = .ok true := by
  rw [← hx, Verify.segment_reduced hd h.x h.y h.proof, h.verified]

/-- Segments in a row are shown by what is read of them. -/
theorem shown_of_leads (hd : Squarefree d.value) (hinner : ∀ s ∈ inner, Accepted d s)
    (hleads : Leads x inner) : Shown d x.reduced ((inner.map Chain.link).map Link.reduced) := by
  induction inner generalizing x with
  | nil => exact shown_nil
  | cons s inner ih =>
    rw [List.map_cons, List.map_cons, shown_cons]
    refine ⟨(hinner s List.mem_cons_self).segment_reduced hd hleads.1, ?_⟩
    exact ih (fun t ht => hinner t (List.mem_cons_of_mem s ht)) hleads.2

/-- Where the last of the links ended, as it is read. -/
theorem getLastD_link_reduced (x : Form) (inner : List Segment) :
    (((inner.map Chain.link).map Link.reduced).map Link.y).getLastD x.reduced =
      ((inner.map Segment.y).getLastD x).reduced := by
  induction inner generalizing x with
  | nil => rfl
  | cons s inner ih =>
    simp only [List.map_cons, List.getLastD_cons]
    exact ih s.y

/-! ## Chains -/

theorem chain_eq_true_iff :
    chain d start bytes iterations depth = .ok true ↔
      ∃ x c z left, decode d start = .ok x ∧ Chain.decode d bytes depth = .ok c ∧
        links d x c.links iterations = .ok (some (z, left)) ∧
        segment d z c.y c.proof left = .ok true := by
  simp only [chain, bind_eq_ok_iff]
  constructor
  · rintro ⟨x, hx, c, hc, found, hlinks, haccepted⟩
    cases found with
    | none => cases haccepted
    | some p => exact ⟨x, c, p.1, p.2, hx, hc, hlinks, haccepted⟩
  · rintro ⟨x, c, z, left, hx, hc, hlinks, haccepted⟩
    exact ⟨x, hx, c, hc, _, hlinks, haccepted⟩

/-- **Segments in a row are accepted as a chain**, if each is proven on its
own and they are no more than a proof can carry. -/
theorem exists_chain (hbits : d.bits ≤ Discriminant.maxBits) (hd : Squarefree d.value)
    (hx : x.Definite d.value) (hdepth : inner.length ≤ Chain.maxDepth)
    (hall : ∀ s ∈ inner ++ [last], Accepted d s) (hleads : Leads x (inner ++ [last])) :
    ∃ start output body, x.encode d = .ok start ∧ last.y.encode d = .ok output ∧
      output.length = Codec.formSize ∧
      Chain.encode d (inner ++ [last]) = .ok { output, body, depth := inner.length } ∧
      chain d start (output ++ body) ((inner ++ [last]).map Segment.length).sum inner.length =
        .ok true := by
  rw [leads_append] at hleads
  have hinner : ∀ s ∈ inner, Accepted d s := fun s hs => hall s (List.mem_append_left _ hs)
  have hlast : Accepted d last := hall last (List.mem_append_right _ List.mem_cons_self)
  have hfits : ∀ s ∈ inner, (Chain.link s).Fits d :=
    fun s hs => ⟨(hinner s hs).y, (hinner s hs).proof, (hinner s hs).length_lt⟩
  obtain ⟨start, hstart, -, hread⟩ := exists_encode_decode hbits hd hx
  obtain ⟨output, body, hout, houtlen, houtread, hencode, hbody⟩ :=
    Chain.exists_encode hbits hd hdepth hfits hlast.y hlast.proof
  refine ⟨start, output, body, hstart, hout, houtlen, hencode, chain_eq_true_iff.2 ?_⟩
  have hlengths : (((inner.map Chain.link).map Link.reduced).map Link.length).sum =
      (inner.map Segment.length).sum := by
    rw [List.map_map, List.map_map]
    rfl
  have hsum : ((inner ++ [last]).map Segment.length).sum =
      (inner.map Segment.length).sum + last.length := by simp
  have hchain : Chain.decode d (output ++ body) inner.length =
      .ok { proof := last.proof.reduced, links := (inner.map Chain.link).map Link.reduced
            y := last.y.reduced } :=
    (Chain.decode_append houtlen).2 ⟨houtread, hbody⟩
  have hlinks : links d x.reduced ((inner.map Chain.link).map Link.reduced)
      ((inner ++ [last]).map Segment.length).sum =
        .ok (some (((inner.map Segment.y).getLastD x).reduced, last.length)) := by
    refine links_eq_some_iff.2 ⟨shown_of_leads hd hinner hleads.1, ?_, ?_, ?_⟩
    · rw [hlengths, hsum]
      omega
    · rw [getLastD_link_reduced]
    · rw [hlengths, hsum]
      omega
  exact ⟨x.reduced, _, _, _, hread, hchain, hlinks, hlast.segment_reduced hd hleads.2.1⟩

/-- Segments of which each starts at the form that the one before it ended at
lead on from the first. -/
theorem leads_of_isChain : ∀ (first : Segment) (rest : List Segment),
    List.IsChain (fun s t => t.x = s.y) (first :: rest) → Leads first.x (first :: rest)
  | _, [], _ => ⟨rfl, trivial⟩
  | _, next :: rest, h => by
    rw [List.isChain_cons_cons] at h
    refine ⟨rfl, ?_⟩
    rw [← h.1]
    exact leads_of_isChain next rest h.2

/-- And if the first starts at a definite form, all of them do. -/
theorem accepted_of_isChain (hd : Squarefree d.value) : ∀ (first : Segment) (rest : List Segment),
    List.IsChain (fun s t => t.x = s.y) (first :: rest) → first.x.Definite d.value →
    (∀ s ∈ first :: rest, s.proof.Definite d.value ∧ s.length < wordCount ∧
      segment d s.x s.y s.proof s.length = .ok true) →
    ∀ s ∈ first :: rest, Accepted d s
  | first, rest, h, hx, hall, s, hs => by
    obtain ⟨hproof, hlength, hverified⟩ := hall first List.mem_cons_self
    have hy := definite_of_segment hd hx hproof hverified
    rcases List.mem_cons.1 hs with rfl | hs
    · exact ⟨hx, hy, hproof, hlength, hverified⟩
    · cases rest with
      | nil => cases hs
      | cons next rest =>
        rw [List.isChain_cons_cons] at h
        exact accepted_of_isChain hd next rest h.2 (h.1 ▸ hy)
          (fun t ht => hall t (List.mem_cons_of_mem first ht)) s hs

/-- **Chain verification is exactly the chain.** Whatever the discriminant
and the bytes, if these encode a form and a chain of some depth, the chain
has so many links, and it is accepted just if their lengths, which are words
but are added as numbers, come to no more than the length claimed, each link
shows what it claims, and so does the last segment for what is left. So for
a squarefree discriminant that forms are encoded for, as many segments as a
proof can carry that are proven each on its own, and of which each starts
where the one before it ended, are accepted as a chain. -/
theorem chain_accepts_exactly (d : Discriminant) :
    (∀ start bytes x c iterations depth, decode d start = .ok x →
      Chain.decode d bytes depth = .ok c →
        c.links.length = depth ∧ (∀ l ∈ c.links, l.length < wordCount) ∧
        (chain d start bytes iterations depth = .ok true ↔
          (c.links.map Link.length).sum ≤ iterations ∧ Shown d x c.links ∧
            segment d ((c.links.map Link.y).getLastD x) c.y c.proof
              (iterations - (c.links.map Link.length).sum) = .ok true)) ∧
    (d.bits ≤ Discriminant.maxBits → Squarefree d.value.natAbs →
      ∀ first rest, rest.length ≤ Chain.maxDepth →
        List.IsChain (fun s t => t.x = s.y) (first :: rest) → first.x.Definite d.value →
        (∀ s ∈ first :: rest, s.proof.Definite d.value ∧ s.length < wordCount ∧
          segment d s.x s.y s.proof s.length = .ok true) →
        ∃ start proof, first.x.encode d = .ok start ∧
          Chain.encode d (first :: rest) = .ok proof ∧ proof.depth = rest.length ∧
          chain d start proof.bytes ((first :: rest).map Segment.length).sum rest.length =
            .ok true) := by
  constructor
  · intro start bytes x c iterations depth hx hc
    obtain ⟨-, hlength, hfits⟩ := Chain.fits_of_decode hc
    refine ⟨hlength, fun l hl => (hfits l hl).length_lt, ?_⟩
    rw [chain_eq_true_iff]
    constructor
    · rintro ⟨x', c', z, left, hx', hc', hlinks, hlast⟩
      cases hx.symm.trans hx'
      cases hc.symm.trans hc'
      obtain ⟨hshown, hsum, rfl, rfl⟩ := links_eq_some_iff.1 hlinks
      exact ⟨hsum, hshown, hlast⟩
    · rintro ⟨hsum, hshown, hlast⟩
      exact ⟨x, c, _, _, hx, hc, links_eq_some_iff.2 ⟨hshown, hsum, rfl, rfl⟩, hlast⟩
  · intro hbits hsquarefree first rest hdepth hchain hx hall
    have hd : Squarefree d.value := Int.squarefree_natAbs.1 hsquarefree
    obtain ⟨inner, last, hsplit⟩ : ∃ inner last, first :: rest = inner ++ [last] :=
      ⟨_, _, (List.dropLast_append_getLast (List.cons_ne_nil first rest)).symm⟩
    have hlength : inner.length = rest.length := by
      have := congrArg List.length hsplit
      simpa using this.symm
    have haccepted := accepted_of_isChain hd first rest hchain hx hall
    have hleads := leads_of_isChain first rest hchain
    rw [hsplit] at haccepted hleads ⊢
    obtain ⟨start, output, body, hstart, -, -, hencode, hverify⟩ :=
      exists_chain hbits hd hx (hlength ▸ hdepth) haccepted hleads
    exact ⟨start, _, hstart, hencode, hlength, hlength ▸ hverify⟩

open Alone (discriminant1487)

/-- Eleven squarings from a form of discriminant `-1487` that is not
reduced. -/
def first1487 : Segment where
  start := 0
  length := 11
  x := ⟨2, 5, 189⟩
  y := squareTimes discriminant1487 11 ⟨2, 5, 189⟩
  proof := identity discriminant1487

/-- And sixteen from where they end. -/
def second1487 : Segment where
  start := 11
  length := 16
  x := first1487.y
  y := squareTimes discriminant1487 16 first1487.y
  proof := identity discriminant1487

theorem squarefree1487 : Squarefree discriminant1487.value.natAbs := by
  have hprime : Nat.Prime discriminant1487.value.natAbs := by norm_num [discriminant1487]
  exact hprime.prime.squarefree

theorem definite1487 : first1487.x.Definite discriminant1487.value := ⟨by decide, by decide⟩

theorem verified1487 : ∀ s ∈ [first1487, second1487],
    segment discriminant1487 s.x s.y s.proof s.length = .ok true := by
  have hd : Squarefree discriminant1487.value := Int.squarefree_natAbs.1 squarefree1487
  have hx := Represents.of_squarefree hd definite1487
  have hy := hx.squareTimes first1487.length
  have hfirst : segment discriminant1487 first1487.x first1487.y first1487.proof 11 = .ok true :=
    segment_identity hx hy (by decide) (by decide +kernel)
  have hsecond : segment discriminant1487 second1487.x second1487.y second1487.proof 16 =
      .ok true :=
    segment_identity hy (hy.squareTimes second1487.length) (by decide) (by decide +kernel)
  simpa using ⟨hfirst, hsecond⟩

/-- The two segments are accepted as a chain of their squarings. -/
theorem chain_accepts_exactly_1487 :
    isReduced first1487.x = false ∧
      ∃ start proof, first1487.x.encode discriminant1487 = .ok start ∧
        Chain.encode discriminant1487 [first1487, second1487] = .ok proof ∧ proof.depth = 1 ∧
        chain discriminant1487 start proof.bytes 27 1 = .ok true := by
  refine ⟨by decide, (chain_accepts_exactly discriminant1487).2 (by decide) squarefree1487
    first1487 [second1487] (by decide) ?_ definite1487 fun s hs => ⟨?_, ?_, verified1487 s hs⟩⟩
  · exact .cons_cons rfl (.singleton _)
  · rcases List.mem_pair.1 hs with rfl | rfl <;> exact definite_identity _
  · rcases List.mem_pair.1 hs with rfl | rfl <;> decide

/-! ## With the last form and without -/

/-- Bytes are accepted as a body if the last form that they lead to can be
recovered. -/
theorem body_eq_some_iff :
    body d b start bytes iterations depth = .ok (some output) ↔
      ∃ x c z left y, decode d start = .ok x ∧ Chain.decodeBody d bytes depth = .ok c ∧
        links d x c.links iterations = .ok (some (z, left)) ∧
        recover d z c.proof b left = .ok (some y) ∧ y.encode d = .ok output := by
  simp only [body, bind_eq_ok_iff]
  constructor
  · rintro ⟨x, hx, c, hc, found, hlinks, h⟩
    cases found with
    | none => cases h
    | some p =>
      obtain ⟨recovered, hrecover, h⟩ := bind_eq_ok_iff.1 h
      cases recovered with
      | none => cases h
      | some y =>
        obtain ⟨bytes, hencode, h⟩ := bind_eq_ok_iff.1 h
        cases h
        exact ⟨x, c, p.1, p.2, y, hx, hc, hlinks, hrecover, hencode⟩
  · rintro ⟨x, c, z, left, y, hx, hc, hlinks, hrecover, hencode⟩
    refine ⟨x, hx, c, hc, _, hlinks, bind_eq_ok_iff.2 ⟨_, hrecover, ?_⟩⟩
    exact bind_eq_ok_iff.2 ⟨output, hencode, rfl⟩

/-- A chain has a challenge if its links are not too long. -/
theorem challenge_eq_ok_iff :
    challenge d start bytes iterations depth = .ok b ↔
      ∃ x c z, decode d start = .ok x ∧ Chain.decode d bytes depth = .ok c ∧
        lastStart x c.links iterations = some z ∧ Challenge.prime d z c.y = .ok b := by
  simp only [challenge, bind_eq_ok_iff, ofFormResult_eq_ok_iff]
  constructor
  · rintro ⟨x, hx, c, hc, h⟩
    split at h
    · rename_i z hz
      exact ⟨x, c, z, hx, hc, hz, ofFormResult_eq_ok_iff.1 h⟩
    · cases h
  · rintro ⟨x, c, z, hx, hc, hz, hprime⟩
    refine ⟨x, hx, c, hc, ?_⟩
    rw [hz]
    exact ofFormResult_eq_ok_iff.2 hprime

/-- The last segment of a chain starts at a definite form. -/
theorem definite_getLastD (hx : x.Definite d.value) (hls : ∀ l ∈ ls, l.Fits d) :
    ((ls.map Link.y).getLastD x).Definite d.value := by
  induction ls generalizing x with
  | nil => exact hx
  | cons l ls ih =>
    rw [List.map_cons, List.getLastD_cons]
    exact ih (hls l List.mem_cons_self).y fun m hm => hls m (List.mem_cons_of_mem l hm)

/-- **Verification with the last form and without agree.** For a squarefree
discriminant, a body shows under a challenge that a form leads to the one
encoded by the output, just if the output and the body are accepted as a
chain and the challenge is that of its last segment. -/
theorem body_agrees_with_chain (hsquarefree : Squarefree d.value.natAbs)
    (hlength : output.length = Codec.formSize) :
    body d b start bytes iterations depth = .ok (some output) ↔
      chain d start (output ++ bytes) iterations depth = .ok true ∧
        challenge d start (output ++ bytes) iterations depth = .ok b := by
  have hd : Squarefree d.value := Int.squarefree_natAbs.1 hsquarefree
  rw [body_eq_some_iff, chain_eq_true_iff, challenge_eq_ok_iff]
  constructor
  · rintro ⟨x, c, z, left, y, hx, hc, hlinks, hrecover, hencode⟩
    obtain ⟨-, hsum, hz, -⟩ := links_eq_some_iff.1 hlinks
    obtain ⟨hy, hprime⟩ := recover_eq_some_iff.1 hrecover
    obtain ⟨hproof, -, hfits⟩ := Chain.fits_of_decodeBody hc
    have hzdef : z.Definite d.value := hz ▸ definite_getLastD (definite_of_decode hx).1 hfits
    have hydef : y.Definite d.value :=
      hy ▸ (represents_target (.of_squarefree hd hzdef) (.of_squarefree hd hproof) b left).definite
    have hyreduced : y.reduced = y :=
      reduced_of_isReduced hydef.leading_pos (hy ▸ isReduced_target hzdef hproof b left)
    have hdecode := decode_of_encode_definite hd hydef hencode
    rw [hyreduced] at hdecode
    have hchain : Chain.decode d (output ++ bytes) depth = .ok { c with y } :=
      (Chain.decode_append hlength).2 ⟨hdecode, hc⟩
    refine ⟨⟨x, _, z, left, hx, hchain, hlinks, segment_eq_true_iff.2 ⟨b, hprime, ?_⟩⟩,
      x, _, z, hx, hchain, lastStart_eq_some_iff.2 ⟨hsum, hz⟩, hprime⟩
    rw [hyreduced, ← hy]
  · rintro ⟨⟨x, c, z, left, hx, hc, hlinks, hsegment⟩, x', c', z', hx', hc', hstart, hprime⟩
    cases hx.symm.trans hx'
    cases hc.symm.trans hc'
    obtain ⟨-, -, hz, -⟩ := links_eq_some_iff.1 hlinks
    obtain ⟨-, hz'⟩ := lastStart_eq_some_iff.1 hstart
    obtain rfl : z' = z := hz'.trans hz.symm
    obtain ⟨b', hprime', htarget⟩ := segment_eq_true_iff.1 hsegment
    cases hprime.symm.trans hprime'
    obtain ⟨hy, hbody⟩ := (Chain.decode_append hlength).1 hc
    obtain ⟨hydef, hyr⟩ := definite_of_decode hy
    rw [reduced_of_isReduced hydef.leading_pos hyr] at htarget
    exact ⟨x, c.toBody, z', left, c.y, hx, hbody, hlinks,
      recover_eq_some_iff.2 ⟨htarget.symm, hprime⟩, (encode_of_decode hy).2.2⟩

/-- What is accepted as a chain has a challenge. -/
theorem exists_challenge (h : chain d start bytes iterations depth = .ok true) :
    ∃ b, challenge d start bytes iterations depth = .ok b := by
  obtain ⟨x, c, z, left, hx, hc, hlinks, hsegment⟩ := chain_eq_true_iff.1 h
  obtain ⟨-, hsum, hz, -⟩ := links_eq_some_iff.1 hlinks
  obtain ⟨b, hprime, -⟩ := segment_eq_true_iff.1 hsegment
  exact ⟨b, challenge_eq_ok_iff.2
    ⟨x, c, z, hx, hc, lastStart_eq_some_iff.2 ⟨hsum, hz⟩, hprime⟩⟩

/-- Without its last form the chain of the two segments shows that form, under
its challenge. -/
theorem body_agrees_with_chain_1487 :
    ∃ b start output bytes, second1487.y.encode discriminant1487 = .ok output ∧
      output.length = Codec.formSize ∧
      body discriminant1487 b start bytes 27 1 = .ok (some output) := by
  have hd : Squarefree discriminant1487.value := Int.squarefree_natAbs.1 squarefree1487
  have hchain : List.IsChain (fun s t => t.x = s.y) [first1487, second1487] :=
    .cons_cons rfl (.singleton _)
  have hall : ∀ s ∈ [first1487, second1487], Accepted discriminant1487 s := by
    refine accepted_of_isChain hd _ _ hchain definite1487 fun s hs => ⟨?_, ?_, verified1487 s hs⟩
    · rcases List.mem_pair.1 hs with rfl | rfl <;> exact definite_identity _
    · rcases List.mem_pair.1 hs with rfl | rfl <;> decide
  have hdepth : [first1487].length ≤ Chain.maxDepth := by decide
  obtain ⟨start, output, bytes, -, hout, hlength, -, haccepted⟩ :=
    exists_chain (by decide) hd definite1487 hdepth hall (leads_of_isChain _ _ hchain)
  obtain ⟨b, hchallenge⟩ := exists_challenge haccepted
  exact ⟨b, start, output, bytes, hout, hlength,
    (body_agrees_with_chain squarefree1487 hlength).2 ⟨haccepted, hchallenge⟩⟩

end Verify

end VerifiableDelay
