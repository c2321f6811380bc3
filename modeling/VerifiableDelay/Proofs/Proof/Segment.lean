import VerifiableDelay.Proofs.Proof.Reading
import VerifiableDelay.Proofs.Proof.Verify
/-!
# Segments of a run

A prover that reads checkpoints while a run goes on may fail to find one, but
what it proves depends on those it finds only. If these are checkpoints of
the run, **the proof is the power to the quotient, whatever was not found**
(`Power.represents_of_prove`). Segments proven so are `Right`: where they
start and how long they are says to which powers of the run's first form
their forms are, so two of the same place send the same (`Right.sent_eq`),
and segments that tile a stretch of the run (`Tiles`) are accepted as a
chain (`Tiles.exists_chain`).
-/

namespace VerifiableDelay

open Form

variable {d : Discriminant} {x y proof : Form} {c : FormClass d}

namespace Power

variable {checkpoints more : Checkpoints} {column row rows columns iterations modulus : Nat}
variable {parameters : Parameters} {w : Quotient.Walk} {b b' : Buckets} {acc acc' : Form}
variable {stopped : Bool}

/-- Finding more checkpoints changes nothing that was sorted. -/
theorem sortColumn_mono (hmore : ∀ i f, checkpoints i = .ok f → more i = .ok f)
    (h : sortColumn d checkpoints column rows row w b = .ok b') :
    sortColumn d more column rows row w b = .ok b' := by
  induction rows generalizing row w b with
  | zero => exact h
  | succ rows ih =>
    rw [sortColumn] at h ⊢
    split at h
    · rename_i hlt
      rw [if_pos hlt]
      exact h
    · rename_i hlt
      rw [if_neg hlt]
      split at h
      · cases h
      · rename_i digit w' _
        obtain ⟨f, hf, hrest⟩ := bind_eq_ok_iff.1 h
        exact bind_eq_ok_iff.2 ⟨f, hmore row f hf, ih hrest⟩

theorem takeColumns_mono (hmore : ∀ i f, checkpoints i = .ok f → more i = .ok f)
    (h : takeColumns d checkpoints rows w columns acc = .ok acc') :
    takeColumns d more rows w columns acc = .ok acc' := by
  induction columns generalizing acc with
  | zero => exact h
  | succ column ih =>
    rw [takeColumns] at h ⊢
    obtain ⟨b, hb, hrest⟩ := bind_eq_ok_iff.1 h
    exact bind_eq_ok_iff.2 ⟨b, sortColumn_mono hmore hb, ih hrest⟩

/-- **Finding more checkpoints changes no proof.** -/
theorem prove_mono (hmore : ∀ i f, checkpoints i = .ok f → more i = .ok f)
    (h : prove d x y checkpoints iterations parameters stopped = .ok proof) :
    prove d x y more iterations parameters stopped = .ok proof := by
  rw [prove] at h ⊢
  split at h
  · rename_i hzero
    rw [if_pos hzero]
    exact h
  · rename_i hzero
    rw [if_neg hzero]
    obtain ⟨modulus, hmodulus, hrest⟩ := bind_eq_ok_iff.1 h
    refine bind_eq_ok_iff.2 ⟨modulus, hmodulus, ?_⟩
    split at hrest
    · cases hrest
    · rename_i hstopped
      rw [if_neg hstopped]
      obtain ⟨acc, hacc, hproof⟩ := bind_eq_ok_iff.1 hrest
      exact bind_eq_ok_iff.2 ⟨acc, takeColumns_mono hmore hacc, hproof⟩

/-- **What is found are checkpoints of the run.** -/
def Truthful (d : Discriminant) (checkpoints : Checkpoints) (c : FormClass d)
    (stride iterations : Nat) : Prop :=
  ∀ i f, stride * i < iterations → checkpoints i = .ok f → Represents d f (c ^ 2 ^ (stride * i))

theorem Faithful.truthful {stride : Nat} (h : Faithful d checkpoints c stride iterations) :
    Truthful d checkpoints c stride iterations := by
  intro i f hi hf
  obtain ⟨g, hg, hrep⟩ := h i hi
  cases hf.symm.trans hg
  exact hrep

/-- A proof of something had its challenge, and was not stopped. -/
theorem exists_prime_of_prove
    (h : prove d x y checkpoints iterations parameters stopped = .ok proof) :
    iterations = 0 ∧ proof = identity d ∨
      stopped = false ∧ ∃ modulus, Challenge.prime d x y = .ok modulus := by
  rw [prove] at h
  split at h
  · rename_i hzero
    cases h
    exact .inl ⟨hzero, rfl⟩
  · obtain ⟨modulus, hmodulus, hrest⟩ := bind_eq_ok_iff.1 h
    split at hrest
    · cases hrest
    · rename_i hstopped
      exact .inr ⟨by simpa using hstopped, modulus, ofFormResult_eq_ok_iff.1 hmodulus⟩

/-- Checkpoints of the run from `z`, where those that are not found are made
up for. -/
def completed (d : Discriminant) (z : Form) (stride : Nat) (checkpoints : Checkpoints) :
    Checkpoints := fun i =>
  match checkpoints i with
  | .ok f => .ok f
  | .error _ => .ok (squareTimes d (stride * i) z)

theorem completed_eq_ok {z f : Form} {stride i : Nat} (h : checkpoints i = .ok f) :
    completed d z stride checkpoints i = .ok f := by
  simp only [completed, h]

theorem Truthful.completed {z : Form} {stride : Nat} (hz : Represents d z c)
    (h : Truthful d checkpoints c stride iterations) :
    Faithful d (completed d z stride checkpoints) c stride iterations := by
  intro i hi
  cases hfound : checkpoints i with
  | ok f => exact ⟨f, completed_eq_ok hfound, h i f hi hfound⟩
  | error e =>
    refine ⟨squareTimes d (stride * i) z, ?_, hz.squareTimes _⟩
    simp only [Power.completed, hfound]

/-- **The proof is the power to the quotient**, if what was found are
checkpoints of the run. -/
theorem represents_of_prove {z : Form} (hwidth : parameters.width ≤ 63) (hz : Represents d z c)
    (hcheck : Truthful d checkpoints c parameters.stride iterations)
    (h : prove d x y checkpoints iterations parameters stopped = .ok proof) :
    iterations = 0 ∧ proof = identity d ∨
      ∃ modulus, Challenge.prime d x y = .ok modulus ∧
        Represents d proof (c ^ (2 ^ iterations / modulus)) := by
  rcases exists_prime_of_prove h with hzero | ⟨rfl, modulus, hmodulus⟩
  · exact .inl hzero
  · obtain ⟨found, hfound, hrep, -⟩ := prove_eq hwidth (hcheck.completed hz) hmodulus
    cases (prove_mono (fun i f hf => completed_eq_ok hf) h).symm.trans hfound
    exact .inr ⟨modulus, hmodulus, hrep⟩

/-- **A proof is made** where every checkpoint is found and there is a
challenge. -/
theorem exists_prove (hwidth : parameters.width ≤ 63)
    (hcheck : Truthful d checkpoints c parameters.stride iterations)
    (hfound : ∀ i, parameters.stride * i < iterations → ∃ f, checkpoints i = .ok f)
    (hchallenge : Challenge.prime d x y ≠ .error .noPrime) :
    ∃ proof, prove d x y checkpoints iterations parameters false = .ok proof := by
  obtain ⟨modulus, hmodulus⟩ := Challenge.exists_prime hchallenge
  have hfaithful : Faithful d checkpoints c parameters.stride iterations := by
    intro i hi
    obtain ⟨f, hf⟩ := hfound i hi
    exact ⟨f, hf, hcheck i f hi hf⟩
  obtain ⟨proof, hproof, -⟩ := prove_eq hwidth hfaithful hmodulus
  exact ⟨proof, hproof⟩

/-- **There are two reasons for no proof** where every checkpoint is found: no
challenge, and being stopped. -/
theorem error_of_prove {error : DelayError} (hwidth : parameters.width ≤ 63)
    (hcheck : Faithful d checkpoints c parameters.stride iterations)
    (h : prove d x y checkpoints iterations parameters stopped = .error error) :
    iterations ≠ 0 ∧ (error = .form .noPrime ∧ Challenge.prime d x y = .error .noPrime ∨
      error = .stopped ∧ stopped = true) := by
  obtain ⟨hpos, hchallenge | hstopped | ⟨i, hi, hrefused⟩⟩ := error_cases_of_prove hwidth h
  · exact ⟨hpos, .inl hchallenge⟩
  · exact ⟨hpos, .inr hstopped⟩
  · obtain ⟨f, hf, -⟩ := hcheck i (Parameters.lt_rows_iff.1 hi)
    cases hf.symm.trans hrefused

end Power

namespace Segment

variable {s t last : Segment} {segments others inner : List Segment} {a b e n : Nat}

/-! ## Right segments -/

/-- **The segment is right** about the run from a form of class `c`: its forms
are the powers that its place says, and its proof is the one for them. -/
structure Right (d : Discriminant) (c : FormClass d) (s : Segment) : Prop where
  x : Represents d s.x (c ^ 2 ^ s.start)
  y : Represents d s.y (c ^ 2 ^ (s.start + s.length))
  proof : s.length = 0 ∧ s.proof = identity d ∨
    ∃ modulus, Challenge.prime d s.x s.y = .ok modulus ∧
      Represents d s.proof ((c ^ 2 ^ s.start) ^ (2 ^ s.length / modulus))

/-- It ends at what squaring leads to from where it starts. -/
theorem Right.y_represents (h : Right d c s) :
    Represents d s.y ((c ^ 2 ^ s.start) ^ 2 ^ s.length) := by
  rw [← pow_mul, ← pow_add]
  exact h.y

/-- The proof of an empty segment is neutral, challenge or not. -/
theorem Right.proof_of_empty (h : Right d c s) (hzero : s.length = 0) :
    Represents d s.proof 1 := by
  rcases h.proof with ⟨-, hproof⟩ | ⟨modulus, hmodulus, hproof⟩
  · exact hproof ▸ .identity d
  · have hlt : 2 ^ s.length < modulus := by
      rw [hzero]
      exact (Nat.one_lt_two_pow (by decide)).trans_le (Challenge.two_pow_le_of_prime hmodulus)
    rwa [Nat.div_eq_of_lt hlt, pow_zero] at hproof

theorem Right.definite_proof (h : Right d c s) : s.proof.Definite d.value := by
  rcases h.proof with ⟨hzero, -⟩ | ⟨modulus, -, hproof⟩
  · exact (h.proof_of_empty hzero).definite
  · exact hproof.definite

/-- The challenge of an empty segment leads from its place to itself. -/
theorem Right.prime_of_empty (h : Right d c s) (hzero : s.length = 0)
    (hx : Represents d x (c ^ 2 ^ s.start)) :
    Challenge.prime d s.x s.y = Challenge.prime d x x := by
  have hy := h.y
  rw [hzero, Nat.add_zero] at hy
  exact Challenge.prime_eq_of_represents h.x hx hy hx

/-- **A right segment is accepted**. For one that is empty this takes that
there is a challenge. -/
theorem Right.accepted (h : Right d c s) (hlength : s.length < wordCount)
    (hempty : s.length = 0 → Challenge.prime d s.x s.y ≠ .error .noPrime) :
    Verify.Accepted d s := by
  refine ⟨h.x.definite, h.y.definite, h.definite_proof, hlength, ?_⟩
  rcases h.proof with ⟨hzero, hproof⟩ | ⟨modulus, hmodulus, hproof⟩
  · have hfew : s.length < Challenge.bits - 1 := by
      rw [hzero]
      decide
    rw [hproof]
    exact Verify.segment_identity h.x h.y_represents hfew (hempty hzero)
  · exact Verify.segment_of_represents h.x h.y_represents hproof hmodulus

/-- It can be sent. -/
theorem Right.fits (h : Right d c s) (hlt : s.length < wordCount) : (Chain.link s).Fits d :=
  ⟨h.y.definite, h.definite_proof, hlt⟩

/-- The place of a segment. -/
def place (s : Segment) : Nat × Nat := (s.start, s.length)

/-- **Two right segments of one place send the same.** -/
theorem Right.sent_eq (hs : Right d c s) (ht : Right d c t) (hplace : s.place = t.place) :
    (Chain.link s).reduced = (Chain.link t).reduced := by
  obtain ⟨hstart, hlength⟩ := Prod.mk.inj hplace
  have hx : Represents d s.x (c ^ 2 ^ t.start) := hstart ▸ hs.x
  have hy : Represents d s.y (c ^ 2 ^ (t.start + t.length)) := hstart ▸ hlength ▸ hs.y
  have hproof : s.proof.reduced = t.proof.reduced := by
    by_cases hzero : s.length = 0
    · exact reduced_eq_of_represents (hs.proof_of_empty hzero)
        (ht.proof_of_empty (hlength ▸ hzero))
    · obtain ⟨modulus, hmodulus, hsproof⟩ := hs.proof.resolve_left fun h => hzero h.1
      obtain ⟨modulus', hmodulus', htproof⟩ := ht.proof.resolve_left fun h => hzero (hlength ▸ h.1)
      rw [Challenge.prime_eq_of_represents hx ht.x hy ht.y, hmodulus'] at hmodulus
      cases hmodulus
      exact reduced_eq_of_represents (hstart ▸ hlength ▸ hsproof) htproof
  simp only [Chain.link, Link.reduced, hlength, reduced_eq_of_represents hy ht.y, hproof]

/-- **And so do right segments of the same places.** -/
theorem sent_eq_of_places (hs : ∀ s ∈ segments, Right d c s) (ht : ∀ t ∈ others, Right d c t)
    (h : segments.map place = others.map place) :
    segments.map (fun s => (Chain.link s).reduced) =
      others.map fun t => (Chain.link t).reduced := by
  induction segments generalizing others with
  | nil =>
    obtain rfl := List.map_eq_nil_iff.1 h.symm
    rfl
  | cons s segments ih =>
    cases others with
    | nil => cases h
    | cons t others =>
      obtain ⟨hplace, hrest⟩ := List.cons.inj h
      obtain ⟨hs, hsegments⟩ := List.forall_mem_cons.1 hs
      obtain ⟨ht, hothers⟩ := List.forall_mem_cons.1 ht
      rw [List.map_cons, List.map_cons, hs.sent_eq ht hplace, ih hsegments hothers hrest]

/-! ## Segments that tile a stretch -/

/-- **The segments tile the stretch** from `a` to `b` squarings: each is right
and starts where the one before it ends. -/
def Tiles (d : Discriminant) (c : FormClass d) : (a : Nat) → List Segment → (b : Nat) → Prop
  | a, [], b => a = b
  | a, s :: rest, b => s.start = a ∧ Right d c s ∧ Tiles d c (a + s.length) rest b

theorem tiles_singleton (hstart : s.start = a) (hright : Right d c s) (hend : a + s.length = b) :
    Tiles d c a [s] b := ⟨hstart, hright, hend⟩

theorem tiles_append (h : Tiles d c a segments b) (h' : Tiles d c b others e) :
    Tiles d c a (segments ++ others) e := by
  induction segments generalizing a with
  | nil => exact (show a = b from h) ▸ h'
  | cons s segments ih => exact ⟨h.1, h.2.1, ih h.2.2⟩

theorem Tiles.right (h : Tiles d c a segments b) : ∀ s ∈ segments, Right d c s := by
  induction segments generalizing a with
  | nil => exact fun s hs => by cases hs
  | cons s segments ih =>
    intro t ht
    rcases List.mem_cons.1 ht with rfl | ht
    · exact h.2.1
    · exact ih h.2.2 t ht

/-- Each is within the stretch. -/
theorem Tiles.within (h : Tiles d c a segments b) :
    a ≤ b ∧ ∀ s ∈ segments, s.start + s.length ≤ b := by
  induction segments generalizing a with
  | nil => exact ⟨Nat.le_of_eq h, fun s hs => by cases hs⟩
  | cons s segments ih =>
    obtain ⟨rfl, -, hrest⟩ := h
    obtain ⟨hle, hwithin⟩ := ih hrest
    refine ⟨by omega, fun t ht => ?_⟩
    rcases List.mem_cons.1 ht with rfl | ht
    · exact hle
    · exact hwithin t ht

/-- So they can be sent. -/
theorem Tiles.fits (h : Tiles d c a segments b) (hlt : b < wordCount) :
    ∀ s ∈ segments, (Chain.link s).Fits d := by
  intro s hs
  have := h.within.2 s hs
  exact (h.right s hs).fits (by omega)

/-- The lengths add up to the stretch. -/
theorem Tiles.add_sum (h : Tiles d c a segments b) :
    a + (segments.map Segment.length).sum = b := by
  induction segments generalizing a with
  | nil => exact h
  | cons s segments ih =>
    rw [List.map_cons, List.sum_cons, ← Nat.add_assoc]
    exact ih h.2.2

/-- There are no more segments of some length than the stretch has room for. -/
theorem Tiles.length_mul_le (h : Tiles d c a segments b) (hlong : ∀ s ∈ segments, n ≤ s.length) :
    a + segments.length * n ≤ b := by
  induction segments generalizing a with
  | nil => exact (Nat.zero_mul n).symm ▸ Nat.le_of_eq h
  | cons s segments ih =>
    have hrest := ih h.2.2 fun t ht => hlong t (List.mem_cons_of_mem s ht)
    have hfirst := hlong s List.mem_cons_self
    rw [List.length_cons, Nat.succ_mul]
    omega

/-- The segments lead on from any form that the stretch starts at. -/
theorem Tiles.leads (h : Tiles d c a segments b) (hx : Represents d x (c ^ 2 ^ a)) :
    Verify.Leads x segments := by
  induction segments generalizing a x with
  | nil => trivial
  | cons s segments ih =>
    obtain ⟨rfl, hright, hrest⟩ := h
    exact ⟨reduced_eq_of_represents hright.x hx, ih hrest hright.y⟩

/-- The last of them ends where the stretch does. -/
theorem Tiles.getLast (h : Tiles d c a (inner ++ [last]) b) : Represents d last.y (c ^ 2 ^ b) := by
  induction inner generalizing a with
  | nil =>
    obtain ⟨rfl, hright, rfl⟩ := h
    exact hright.y
  | cons s inner ih => exact ih h.2.2

/-- Segments that tile a stretch are encoded, unless they are more than a
proof can carry. -/
theorem Tiles.exists_encode (hbits : d.bits ≤ Discriminant.maxBits) (hd : Squarefree d.value)
    (h : Tiles d c a segments b) (hlt : b < wordCount) (hne : segments ≠ [])
    (hfew : segments.length ≤ Chain.maxDepth + 1) : ∃ p, Chain.encode d segments = .ok p := by
  obtain ⟨inner, last, rfl⟩ := (List.eq_nil_or_concat segments).resolve_left hne
  rw [List.concat_eq_append] at *
  rw [List.length_append, List.length_singleton] at hfew
  have hfits := h.fits hlt
  have hlast := hfits last (List.mem_append_right _ List.mem_cons_self)
  obtain ⟨output, body, -, -, -, hencode, -⟩ := Chain.exists_encode hbits hd (by omega)
    (fun s hs => hfits s (List.mem_append_left _ hs)) hlast.y hlast.proof
  exact ⟨_, hencode⟩

/-- **What is encoded of segments that tile a run is accepted**, and says where
the run leads. For empty segments this takes that they have a challenge. -/
theorem Tiles.exists_chain {p : Proof} (hbits : d.bits ≤ Discriminant.maxBits)
    (hd : Squarefree d.value) (hx : Represents d x c) (h : Tiles d c 0 segments n)
    (hlt : n < wordCount)
    (hempty : ∀ s ∈ segments, s.length = 0 → Challenge.prime d s.x s.y ≠ .error .noPrime)
    (hencode : Chain.encode d segments = .ok p) :
    ∃ start, x.encode d = .ok start ∧ (squareTimes d n x).encode d = .ok p.output ∧
      p.depth + 1 = segments.length ∧ p.depth ≤ Chain.maxDepth ∧
      Verify.chain d start p.bytes n p.depth = .ok true := by
  obtain rfl | ⟨inner, last, rfl⟩ := List.eq_nil_or_concat segments
  · cases hencode
  rw [List.concat_eq_append] at *
  have hdepth : inner.length ≤ Chain.maxDepth := by
    by_contra hdeep
    rw [Chain.encode, List.getLast?_concat] at hencode
    simp only [List.dropLast_concat] at hencode
    rw [if_pos (by omega)] at hencode
    cases hencode
  have hsum := h.add_sum
  have hall : ∀ s ∈ inner ++ [last], Verify.Accepted d s := by
    intro s hs
    have := h.within.2 s hs
    exact (h.right s hs).accepted (by omega) (hempty s hs)
  have hleads := h.leads (x := x) (by simpa using hx)
  obtain ⟨start, output, body, hstart, hout, -, hencode', hchain⟩ :=
    Verify.exists_chain hbits hd hx.definite hdepth hall hleads
  cases hencode.symm.trans hencode'
  have hy := hx.squareTimes n
  refine ⟨start, hstart, ?_, by simp, hdepth, ?_⟩
  · rw [encode_congr hy.definite h.getLast.definite (reduced_eq_of_represents hy h.getLast)]
    exact hout
  · rw [Nat.zero_add] at hsum
    rw [hsum] at hchain
    exact hchain

end Segment

/-! ## A class that squaring leads back to -/

/-- The discriminant `-1823`, a prime's negative. -/
def discriminant1823 : Discriminant :=
  { value := -1823, value_neg := by decide, value_mod := by decide }

/-- A form that is not reduced. -/
def form1823 : Form := ⟨13, 33, 56⟩

theorem squarefree1823 : Squarefree discriminant1823.value.natAbs := by
  have hprime : Nat.Prime discriminant1823.value.natAbs := by norm_num [discriminant1823]
  exact hprime.prime.squarefree

theorem definite1823 : form1823.Definite discriminant1823.value := ⟨by decide, by decide⟩

/-- Its order divides fifteen, so four squarings lead back to it. -/
theorem reduced_squareTimes1823 (n : Nat) :
    (squareTimes discriminant1823 (4 * n) form1823).reduced = form1823.reduced := by
  have hfirst : squareTimes discriminant1823 4 form1823 = form1823.reduced := by decide +kernel
  have hnext : squareTimes discriminant1823 4 form1823.reduced = form1823.reduced := by
    decide +kernel
  have hreduced : form1823.reduced.reduced = form1823.reduced := by decide +kernel
  have hstay : ∀ n, squareTimes discriminant1823 (4 * n) form1823.reduced = form1823.reduced := by
    intro n
    induction n with
    | zero => rfl
    | succ n ih => exact (congrArg (squareTimes discriminant1823 (4 * n)) hnext).trans ih
  cases n with
  | zero => rfl
  | succ n =>
    have hstep := (congrArg (squareTimes discriminant1823 (4 * n)) hfirst).trans (hstay n)
    exact (congrArg reduced hstep).trans hreduced

/-- All that is said of this class has one challenge. -/
theorem challenge1823 (m n : Nat) :
    Challenge.prime discriminant1823 (squareTimes discriminant1823 (4 * m) form1823)
      (squareTimes discriminant1823 (4 * n) form1823) ≠ .error .noPrime := by
  have hrep := Represents.of_squarefree (Int.squarefree_natAbs.1 squarefree1823) definite1823
  rw [Challenge.prime_congr (hrep.squareTimes _).definite definite1823
    (hrep.squareTimes _).definite definite1823 (reduced_squareTimes1823 m)
    (reduced_squareTimes1823 n)]
  decide +kernel

end VerifiableDelay
