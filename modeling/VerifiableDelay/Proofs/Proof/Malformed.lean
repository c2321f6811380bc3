import VerifiableDelay.Proofs.Form.Readable
import VerifiableDelay.Proofs.Proof.Verify
/-!
# What verification fails on

A verifier reads all that it is given before it looks at what the proof
claims. So it fails where something cannot be read, and there it fails for
that, whatever else is wrong: **verification fails exactly on malformed
bytes** (`Verify.fails_exactly_on_malformed`), and a proof that is only wrong
is answered. Once everything is read all forms are definite, whether or not
the discriminant is squarefree, and challenges are found for them if the
searches end (`Challenge.SearchesEnd`).
-/

namespace VerifiableDelay

variable {d : Discriminant} {x y z proof : Form} {iterations depth b : Nat}
variable {start bytes : List UInt8}

/-- A search for a challenge ends for whatever two forms. -/
def Challenge.SearchesEnd (d : Discriminant) : Prop :=
  ∀ x y : Form, x.Definite d.value → y.Definite d.value → prime d x y ≠ .error .noPrime

/-- What fails has no answer. -/
theorem exists_error_iff {ε α : Type} {x : Except ε α} :
    (∃ e, x = .error e) ↔ ¬ ∃ a, x = .ok a := by
  cases x <;> simp

namespace Chain

/-! ## Bytes of forms -/

/-- The bytes of the form that stands at an offset. -/
def formAt (bytes : List UInt8) (offset : Nat) : List UInt8 :=
  (bytes.drop offset).take Codec.formSize

/-- **Bytes are well formed** as a proof of a depth, with so many forms before
its links, for an encoded start: they are as long as they should, and every
form in them is the encoding of one. -/
structure WellFormed (d : Discriminant) (leading : Nat) (start bytes : List UInt8)
    (depth : Nat) : Prop where
  start : Form.Encoded d start
  depth_le : depth ≤ maxDepth
  length_eq : bytes.length = leading * Codec.formSize + depth * linkSize
  forms : ∀ i < leading, Form.Encoded d (formAt bytes (i * Codec.formSize))
  links : ∀ i < depth,
    Form.Encoded d (formAt bytes (leading * Codec.formSize + i * linkSize + lengthSize)) ∧
      Form.Encoded d
        (formAt bytes (leading * Codec.formSize + i * linkSize + lengthSize + Codec.formSize))

theorem formAt_drop (m n : Nat) : formAt (bytes.drop m) n = formAt bytes (m + n) := by
  rw [formAt, List.drop_drop, formAt]

theorem formAt_take {m n : Nat} (h : n + Codec.formSize ≤ m) :
    formAt (bytes.take m) n = formAt bytes n := by
  rw [formAt, List.drop_take, List.take_take, min_eq_left (by omega), formAt]

/-! ## What is read -/

/-- **A link is read** if both of its forms are. -/
theorem exists_readLink_iff (hlen : bytes.length = linkSize) :
    (∃ l, readLink d bytes = .ok l) ↔
      Form.Encoded d (formAt bytes lengthSize) ∧
        Form.Encoded d (formAt bytes (lengthSize + Codec.formSize)) := by
  have hproof : (bytes.drop lengthSize).drop Codec.formSize =
      formAt bytes (lengthSize + Codec.formSize) := by
    rw [formAt, List.drop_drop, List.take_of_length_le]
    rw [List.length_drop, hlen]
    decide
  simp only [readLink, hproof, bind_eq_ok_iff, pure_eq_ok_iff, ← Form.exists_decode_iff, formAt]
  constructor
  · rintro ⟨l, y, hy, proof, hproof, -⟩
    exact ⟨⟨y, hy⟩, proof, hproof⟩
  · rintro ⟨⟨y, hy⟩, proof, hproof⟩
    exact ⟨_, y, hy, proof, hproof, rfl⟩

/-- **Links are read** if all of their forms are, from the last link to the
first. -/
theorem exists_readLinks_iff (hlen : bytes.length = depth * linkSize) :
    (∃ ls, readLinks d depth bytes = .ok ls) ↔
      ∀ i < depth, Form.Encoded d (formAt bytes (i * linkSize + lengthSize)) ∧
        Form.Encoded d (formAt bytes (i * linkSize + lengthSize + Codec.formSize)) := by
  induction depth generalizing bytes with
  | zero => simp [readLinks]
  | succ depth ih =>
    rw [Nat.succ_mul] at hlen
    have hfirst : (bytes.drop (depth * linkSize)).length = linkSize := by
      rw [List.length_drop]
      omega
    have hrest : (bytes.take (depth * linkSize)).length = depth * linkSize := by
      rw [List.length_take]
      omega
    rw [Nat.forall_lt_succ_right]
    have hlast := exists_readLink_iff (d := d) hfirst
    rw [formAt_drop, formAt_drop, ← Nat.add_assoc] at hlast
    -- the links before it end where it begins
    have hinner : (∃ ls, readLinks d depth (bytes.take (depth * linkSize)) = .ok ls) ↔
        ∀ i < depth, Form.Encoded d (formAt bytes (i * linkSize + lengthSize)) ∧
          Form.Encoded d (formAt bytes (i * linkSize + lengthSize + Codec.formSize)) := by
      rw [ih hrest]
      refine forall_congr' fun i => imp_congr_right fun hi => ?_
      have hend : i * linkSize + linkSize ≤ depth * linkSize := by
        rw [← Nat.succ_mul]
        exact Nat.mul_le_mul_right _ hi
      have hsize : linkSize = lengthSize + 2 * Codec.formSize := rfl
      rw [formAt_take (by omega), formAt_take (by omega)]
    rw [← hinner, ← hlast]
    simp only [readLinks, bind_eq_ok_iff, pure_eq_ok_iff]
    constructor
    · rintro ⟨_, l, hl, rest, hrest, -⟩
      exact ⟨⟨rest, hrest⟩, l, hl⟩
    · rintro ⟨⟨rest, hrest⟩, l, hl⟩
      exact ⟨_, l, hl, rest, hrest, rfl⟩

/-- Links alone are well formed if they are read. -/
theorem wellFormed_zero_iff :
    WellFormed d 0 start bytes depth ↔
      Form.Encoded d start ∧ depth ≤ maxDepth ∧ bytes.length = depth * linkSize ∧
        ∃ ls, readLinks d depth bytes = .ok ls := by
  constructor
  · rintro ⟨hstart, hdepth, hlen, -, hlinks⟩
    simp only [Nat.zero_mul, Nat.zero_add] at hlen hlinks
    exact ⟨hstart, hdepth, hlen, (exists_readLinks_iff hlen).2 hlinks⟩
  · rintro ⟨hstart, hdepth, hlen, hread⟩
    refine ⟨hstart, hdepth, by omega, fun i hi => absurd hi (Nat.not_lt_zero i), ?_⟩
    simp only [Nat.zero_mul, Nat.zero_add]
    exact (exists_readLinks_iff hlen).1 hread

/-- A form before what is well formed adds itself. -/
theorem wellFormed_succ_iff {n : Nat} (hlen : Codec.formSize ≤ bytes.length) :
    WellFormed d (n + 1) start bytes depth ↔
      Form.Encoded d (bytes.take Codec.formSize) ∧
        WellFormed d n start (bytes.drop Codec.formSize) depth := by
  have hfirst : formAt bytes (0 * Codec.formSize) = bytes.take Codec.formSize := by
    rw [Nat.zero_mul, formAt, List.drop_zero]
  have hnext : ∀ i, formAt bytes ((i + 1) * Codec.formSize) =
      formAt (bytes.drop Codec.formSize) (i * Codec.formSize) := by
    intro i
    rw [formAt_drop, Nat.succ_mul, Nat.add_comm]
  have hlink : ∀ i, (n + 1) * Codec.formSize + i * linkSize + lengthSize =
      Codec.formSize + (n * Codec.formSize + i * linkSize + lengthSize) := by
    intro i
    rw [Nat.succ_mul]
    omega
  have hsize : (n + 1) * Codec.formSize = n * Codec.formSize + Codec.formSize := Nat.succ_mul _ _
  constructor
  · rintro ⟨hstart, hdepth, hlength, hforms, hlinks⟩
    refine ⟨hfirst ▸ hforms 0 (Nat.succ_pos n), hstart, hdepth, ?_, fun i hi => ?_, fun i hi => ?_⟩
    · rw [List.length_drop]
      omega
    · rw [← hnext]
      exact hforms (i + 1) (Nat.succ_lt_succ hi)
    · have hpair := hlinks i hi
      simp only [hlink, formAt_drop, Nat.add_assoc] at hpair ⊢
      exact hpair
  · rintro ⟨hform, hstart, hdepth, hlength, hforms, hlinks⟩
    rw [List.length_drop] at hlength
    refine ⟨hstart, hdepth, by omega, fun i hi => ?_, fun i hi => ?_⟩
    · cases i with
      | zero => exact hfirst ▸ hform
      | succ i =>
        rw [hnext]
        exact hforms i (Nat.lt_of_succ_lt_succ hi)
    · have hpair := hlinks i hi
      simp only [hlink, formAt_drop, Nat.add_assoc] at hpair ⊢
      exact hpair

/-- **A body is read** just if it is well formed. -/
theorem wellFormed_one_iff :
    WellFormed d 1 start bytes depth ↔
      Form.Encoded d start ∧ ∃ b, decodeBody d bytes depth = .ok b := by
  simp only [decodeBody, ite_error_eq_ok_iff, not_lt, not_not, bind_eq_ok_iff, pure_eq_ok_iff]
  constructor
  · intro h
    have hlen := h.length_eq
    rw [Nat.one_mul] at hlen
    obtain ⟨hproof, hrest⟩ := (wellFormed_succ_iff (by omega)).1 h
    obtain ⟨proof, hproof⟩ := Form.exists_decode_iff.2 hproof
    obtain ⟨hstart, hdepth, -, ls, hls⟩ := wellFormed_zero_iff.1 hrest
    exact ⟨hstart, _, hdepth, hlen, proof, hproof, ls, hls, rfl⟩
  · rintro ⟨hstart, _, hdepth, hlen, proof, hproof, ls, hls, -⟩
    refine (wellFormed_succ_iff (by omega)).2 ⟨Form.exists_decode_iff.1 ⟨proof, hproof⟩, ?_⟩
    exact wellFormed_zero_iff.2
      ⟨hstart, hdepth, by rw [List.length_drop]; omega, ls, hls⟩

/-- **A proof is read** just if it is well formed. -/
theorem wellFormed_two_iff :
    WellFormed d 2 start bytes depth ↔
      Form.Encoded d start ∧ ∃ c, decode d bytes depth = .ok c := by
  constructor
  · intro h
    have hlen := h.length_eq
    have htake : (bytes.take Codec.formSize).length = Codec.formSize := by
      rw [List.length_take]
      omega
    obtain ⟨hform, hbody⟩ := (wellFormed_succ_iff (by omega)).1 h
    obtain ⟨y, hy⟩ := Form.exists_decode_iff.2 hform
    obtain ⟨hstart, b, hb⟩ := wellFormed_one_iff.1 hbody
    refine ⟨hstart, { b with y }, ?_⟩
    rw [← List.take_append_drop Codec.formSize bytes]
    exact (decode_append htake).2 ⟨hy, hb⟩
  · rintro ⟨hstart, c, hc⟩
    obtain ⟨output, body, rfl, hy, hbody⟩ := exists_append_of_decode hc
    have hlen := Form.length_of_decode hy
    rw [wellFormed_succ_iff (by rw [List.length_append]; omega), List.take_left' hlen,
      List.drop_left' hlen]
    exact ⟨Form.exists_decode_iff.1 ⟨_, hy⟩, wellFormed_one_iff.2 ⟨hstart, _, hbody⟩⟩

/-! ## What is not -/

theorem blamesBytes_readLink (d : Discriminant) (bytes : List UInt8) :
    BlamesBytes (readLink d bytes) := by
  unfold readLink
  refine (Form.blamesBytes_decode _ _).bind fun y _ => ?_
  exact (Form.blamesBytes_decode _ _).bind fun proof _ => .ok _

theorem blamesBytes_readLinks (d : Discriminant) (depth : Nat) (bytes : List UInt8) :
    BlamesBytes (readLinks d depth bytes) := by
  induction depth generalizing bytes with
  | zero => exact .ok _
  | succ depth ih =>
    unfold readLinks
    exact (blamesBytes_readLink _ _).bind fun l _ => (ih _).bind fun rest _ => .ok _

/-- **A body is refused for what is wrong with its bytes.** -/
theorem blamesBytes_decodeBody (d : Discriminant) (bytes : List UInt8) (depth : Nat) :
    BlamesBytes (decodeBody d bytes depth) := by
  unfold decodeBody
  refine .ite (fun _ => .error _) fun _ => .ite (fun _ => .error _) fun _ => ?_
  refine (Form.blamesBytes_decode _ _).bind fun proof _ => ?_
  exact (blamesBytes_readLinks _ _ _).bind fun ls _ => .ok _

/-- And so is a proof. -/
theorem blamesBytes_decode (d : Discriminant) (bytes : List UInt8) (depth : Nat) :
    BlamesBytes (decode d bytes depth) := by
  unfold decode
  refine .ite (fun _ => .error _) fun _ => .ite (fun _ => .error _) fun _ => ?_
  refine (Form.blamesBytes_decode _ _).bind fun y _ => ?_
  refine (Form.blamesBytes_decode _ _).bind fun proof _ => ?_
  exact (blamesBytes_readLinks _ _ _).bind fun ls _ => .ok _

end Chain

namespace Verify

variable {l : Link} {ls : List Link}

/-! ## What is read is answered -/

/-- Where a proof leads is a definite form, as those it is made of are. -/
theorem definite_target (hx : x.Definite d.value) (hproof : proof.Definite d.value)
    (challenge iterations : Nat) : (target d x proof challenge iterations).Definite d.value :=
  (hproof.pow challenge).compose (hx.pow _)

/-- A segment is answered. -/
theorem exists_segment (hsearch : Challenge.SearchesEnd d) (hx : x.Definite d.value)
    (hy : y.Definite d.value) (proof : Form) (iterations : Nat) :
    ∃ accepted, segment d x y proof iterations = .ok accepted := by
  obtain ⟨b, hb⟩ := Challenge.exists_prime (hsearch x y hx hy)
  refine ⟨target d x proof b iterations == y.reduced, ?_⟩
  rw [segment, hb]
  rfl

/-- **So are links**, and what they leave starts at a definite form. -/
theorem exists_links (hsearch : Challenge.SearchesEnd d) (hx : x.Definite d.value)
    (hls : ∀ l ∈ ls, l.Fits d) (iterations : Nat) :
    ∃ found, links d x ls iterations = .ok found ∧
      ∀ z left, found = some (z, left) → z.Definite d.value := by
  induction ls generalizing x iterations with
  | nil =>
    refine ⟨_, rfl, fun z left h => ?_⟩
    cases h
    exact hx
  | cons l ls ih =>
    obtain ⟨hl, hls⟩ := List.forall_mem_cons.1 hls
    rw [links]
    split
    · exact ⟨none, rfl, fun z left h => by cases h⟩
    · obtain ⟨accepted, haccepted⟩ := exists_segment hsearch hx hl.y l.proof l.length
      rw [haccepted]
      cases accepted with
      | false => exact ⟨none, rfl, fun z left h => by cases h⟩
      | true => exact ih hl.y hls (iterations - l.length)

/-- **A form is looked for** in what a proof leads to, and what is found is
definite. -/
theorem exists_recover (hsearch : Challenge.SearchesEnd d) (hx : x.Definite d.value)
    (hproof : proof.Definite d.value) (b iterations : Nat) :
    ∃ found, recover d x proof b iterations = .ok found ∧
      ∀ y, found = some y → y.Definite d.value := by
  have hy := definite_target hx hproof b iterations
  rw [recover]
  split
  · exact ⟨none, rfl, fun y h => by cases h⟩
  · obtain ⟨p, hp⟩ := Challenge.exists_prime (hsearch x _ hx hy)
    simp only [hp]
    refine ⟨_, rfl, fun y h => ?_⟩
    split at h
    · cases h
      exact hy
    · cases h

/-- Nothing is read for a discriminant that forms are not encoded for. -/
theorem bits_le_of_decode (h : Form.decode d start = .ok x) : d.bits ≤ Discriminant.maxBits := by
  obtain ⟨-, -, hleading⟩ := Form.decodeLeading_of_decode h
  exact (Codec.decodeLeading_eq_ok_iff.1 hleading).2.1

/-- **A chain that is read is answered.** -/
theorem exists_chain_iff (hsearch : Challenge.SearchesEnd d) :
    (∃ accepted, chain d start bytes iterations depth = .ok accepted) ↔
      Chain.WellFormed d 2 start bytes depth := by
  rw [Chain.wellFormed_two_iff, ← Form.exists_decode_iff]
  simp only [chain, bind_eq_ok_iff]
  constructor
  · rintro ⟨_, x, hx, c, hc, -⟩
    exact ⟨⟨x, hx⟩, c, hc⟩
  · rintro ⟨⟨x, hx⟩, c, hc⟩
    obtain ⟨output, body, -, hy, hbody⟩ := Chain.exists_append_of_decode hc
    have hfits := (Chain.fits_of_decodeBody hbody).2.2
    obtain ⟨found, hfound, hdefinite⟩ :=
      exists_links hsearch (Form.definite_of_decode hx).1 hfits iterations
    cases found with
    | none => exact ⟨false, x, hx, c, hc, none, hfound, rfl⟩
    | some p =>
      obtain ⟨accepted, haccepted⟩ := exists_segment hsearch (hdefinite p.1 p.2 rfl)
        (Form.definite_of_decode hy).1 c.proof p.2
      exact ⟨accepted, x, hx, c, hc, some p, hfound, haccepted⟩

/-- **So is a body**: what is recovered of it has an encoding. -/
theorem exists_body_iff (hsearch : Challenge.SearchesEnd d) :
    (∃ found, body d b start bytes iterations depth = .ok found) ↔
      Chain.WellFormed d 1 start bytes depth := by
  rw [Chain.wellFormed_one_iff, ← Form.exists_decode_iff]
  simp only [body, bind_eq_ok_iff]
  constructor
  · rintro ⟨_, x, hx, c, hc, -⟩
    exact ⟨⟨x, hx⟩, c, hc⟩
  · rintro ⟨⟨x, hx⟩, c, hc⟩
    obtain ⟨hproof, -, hfits⟩ := Chain.fits_of_decodeBody hc
    obtain ⟨found, hfound, hdefinite⟩ :=
      exists_links hsearch (Form.definite_of_decode hx).1 hfits iterations
    cases found with
    | none => exact ⟨none, x, hx, c, hc, none, hfound, rfl⟩
    | some p =>
      obtain ⟨recovered, hrecovered, hy⟩ :=
        exists_recover hsearch (hdefinite p.1 p.2 rfl) hproof b p.2
      cases recovered with
      | none =>
        refine ⟨none, x, hx, c, hc, some p, hfound, ?_⟩
        rw [bind_eq_ok_iff]
        exact ⟨none, hrecovered, rfl⟩
      | some y =>
        obtain ⟨output, houtput⟩ := Form.exists_encode (hy y rfl) (bits_le_of_decode hx)
        refine ⟨some output, x, hx, c, hc, some p, hfound, ?_⟩
        rw [bind_eq_ok_iff]
        refine ⟨some y, hrecovered, ?_⟩
        simp only [houtput]
        rfl

theorem blamesBytes_chain (hsearch : Challenge.SearchesEnd d) (start bytes : List UInt8)
    (iterations depth : Nat) : BlamesBytes (chain d start bytes iterations depth) := by
  by_cases h : Chain.WellFormed d 2 start bytes depth
  · obtain ⟨accepted, haccepted⟩ := (exists_chain_iff hsearch).2 h
    rw [haccepted]
    exact .ok _
  · refine (Form.blamesBytes_decode d start).bind fun x hx => ?_
    refine (Chain.blamesBytes_decode d bytes depth).bind fun c hc => ?_
    exact absurd (Chain.wellFormed_two_iff.2 ⟨Form.exists_decode_iff.1 ⟨x, hx⟩, c, hc⟩) h

theorem blamesBytes_body (hsearch : Challenge.SearchesEnd d) (b : Nat) (start bytes : List UInt8)
    (iterations depth : Nat) : BlamesBytes (body d b start bytes iterations depth) := by
  by_cases h : Chain.WellFormed d 1 start bytes depth
  · obtain ⟨found, hfound⟩ := (exists_body_iff hsearch).2 h
    rw [hfound]
    exact .ok _
  · refine (Form.blamesBytes_decode d start).bind fun x hx => ?_
    refine (Chain.blamesBytes_decodeBody d bytes depth).bind fun c hc => ?_
    exact absurd (Chain.wellFormed_one_iff.2 ⟨Form.exists_decode_iff.1 ⟨x, hx⟩, c, hc⟩) h

/-- **Verification fails exactly on malformed bytes.** If searches for
challenges end, then for whatever bytes, claimed length and depth a chain is
not answered just if it is not well formed with its last form, and a body
just if it is not without it, and what is blamed then is an encoding. Where
the discriminant is squarefree, bytes in them are those of a form if some
reduced form of the discriminant is encoded as them. For other discriminants
that form is not to be one whose leading coefficient is the square of the
factor it shares with the middle one: such a form is written and not read. -/
theorem fails_exactly_on_malformed (d : Discriminant) (hsearch : Challenge.SearchesEnd d) :
    (∀ start bytes iterations depth,
      ((∃ e, chain d start bytes iterations depth = .error e) ↔
        ¬ Chain.WellFormed d 2 start bytes depth) ∧
      ∀ e, chain d start bytes iterations depth = .error e → ∃ fault, e = .encoding fault) ∧
    (∀ b start bytes iterations depth,
      ((∃ e, body d b start bytes iterations depth = .error e) ↔
        ¬ Chain.WellFormed d 1 start bytes depth) ∧
      ∀ e, body d b start bytes iterations depth = .error e → ∃ fault, e = .encoding fault) ∧
    (Squarefree d.value.natAbs → ∀ bytes, Form.Encoded d bytes ↔
      ∃ f : Form, f.isReduced = true ∧ f.discriminant = d.value ∧ f.encode d = .ok bytes) := by
  refine ⟨fun start bytes iterations depth => ⟨?_, ?_⟩,
    fun b start bytes iterations depth => ⟨?_, ?_⟩, fun hd bytes => ?_⟩
  · rw [exists_error_iff, exists_chain_iff hsearch]
  · exact blamesBytes_chain hsearch start bytes iterations depth
  · rw [exists_error_iff, exists_body_iff hsearch]
  · exact blamesBytes_body hsearch b start bytes iterations depth
  · exact Form.encoded_iff_of_squarefree (Int.squarefree_natAbs.1 hd)

/-- The discriminant `-7`. -/
def discriminant7 : Discriminant := { value := -7, value_neg := by decide, value_mod := by decide }

/-- It has one reduced form, so one search is all there is. -/
theorem searchesEnd7 : Challenge.SearchesEnd discriminant7 := by
  have hreduced : ∀ x : Form, x.Definite discriminant7.value → x.reduced = ⟨1, 1, 2⟩ := by
    intro x hx
    have hr := hx.isReduced_reduced discriminant7.value_neg
    have hdef := hx.reduced discriminant7.value_neg
    have hsmall := Form.three_mul_a_sq_le hdef.leading_pos hr
    have hpos := hdef.leading_pos
    have hdisc : x.reduced.discriminant = -7 := hdef.discriminant_eq
    obtain ⟨hb, -, hsign⟩ := Form.isReduced_iff.1 hr
    generalize x.reduced = f at *
    obtain ⟨a, b, c⟩ := f
    simp only [Form.discriminant] at *
    have ha : a = 1 := by nlinarith
    subst ha
    have hbs : b = -1 ∨ b = 0 ∨ b = 1 := by omega
    rcases hbs with rfl | rfl | rfl
    · omega
    · omega
    · obtain rfl : c = 2 := by omega
      rfl
  intro x y hx hy
  have hone : Form.Definite discriminant7.value ⟨1, 1, 2⟩ := ⟨by decide, by decide⟩
  have hself : Form.reduced ⟨1, 1, 2⟩ = ⟨1, 1, 2⟩ := by decide
  rw [Challenge.prime_congr hx hone hy hone ((hreduced x hx).trans hself.symm)
    ((hreduced y hy).trans hself.symm)]
  decide +kernel

/-- A chain of two segments of that form, of which the first claims five
squarings, with `flag` in the place of the last form's. -/
def bytes7 (flag : UInt8) : List UInt8 :=
  Codec.padForm [flag] ++ Codec.padForm [Codec.identityFlag] ++
    (Bytes.toBigEndian Chain.lengthSize 5 ++ Codec.padForm [Codec.identityFlag] ++
      Codec.padForm [Codec.identityFlag])

/-- As a proof of three squarings it is answered: its first segment is too
long. With a last form that cannot be read it fails for that. -/
theorem fails_exactly_on_malformed_7 :
    Challenge.SearchesEnd discriminant7 ∧
      (¬ ∃ e, chain discriminant7 (Codec.padForm [Codec.identityFlag])
        (bytes7 Codec.identityFlag) 3 1 = .error e) ∧
      ∃ e, chain discriminant7 (Codec.padForm [Codec.identityFlag]) (bytes7 0) 3 1 = .error e := by
  obtain ⟨hchain, -, -⟩ := fails_exactly_on_malformed discriminant7 searchesEnd7
  refine ⟨searchesEnd7, ?_, ?_⟩
  · rw [(hchain _ _ _ _).1, not_not, Chain.wellFormed_two_iff, ← Form.exists_decode_iff]
    refine ⟨⟨⟨1, 1, 2⟩, by decide +kernel⟩, ?_⟩
    refine isOk_iff_exists.1 ?_
    decide +kernel
  · rw [(hchain _ _ _ _).1, Chain.wellFormed_two_iff]
    rintro ⟨-, hread⟩
    have := isOk_iff_exists.2 hread
    revert this
    decide +kernel

/-- The discriminant `-495`, a multiple of nine. -/
def discriminant495 : Discriminant :=
  { value := -495, value_neg := by decide, value_mod := by decide }

/-- The bytes of `(9, 3, 14)`, whose leading coefficient is the square of the
three it shares with the middle one. -/
def encoded495 : List UInt8 := Codec.padForm [0, 0, 9, 0, 1, 1]

/-- **Such a form is written and not read**: from its encoding, an encoding of
the neutral form to which two squarings lead and one of a proof of that,
verification fails. -/
theorem encoded_form_not_read_495 :
    Form.isReduced ⟨9, 3, 14⟩ = true ∧ Form.discriminant ⟨9, 3, 14⟩ = discriminant495.value ∧
      Form.encode discriminant495 ⟨9, 3, 14⟩ = .ok encoded495 ∧
      (Form.identity discriminant495).isReduced = true ∧
      (Form.identity discriminant495).encode discriminant495 =
        .ok (Codec.padForm [Codec.identityFlag]) ∧
      Form.squareTimes discriminant495 2 ⟨9, 3, 14⟩ = Form.identity discriminant495 ∧
      chain discriminant495 encoded495
        (Codec.padForm [Codec.identityFlag] ++ Codec.padForm [Codec.identityFlag]) 2 0 =
          .error (.encoding .otherDiscriminant) := by
  decide +kernel

end Verify

end VerifiableDelay
