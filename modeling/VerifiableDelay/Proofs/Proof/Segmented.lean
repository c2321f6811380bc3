import VerifiableDelay.Proofs.Proof.Piece
import VerifiableDelay.Proofs.Proof.Plan
/-!
# What is chained of a run's segments is accepted

What is planned for a request tiles it, and so do the segments that take the
place of lost ones, on whatever level they are found. Together with the last
stretch, which is squared again, they are **accepted as a chain, whatever
was lost** (`Segmented.accepted_of_proveFrom`), and so is what is proven at
once as the run is now (`Segmented.accepted_of_prove`). A request is answered
as long as no shortest segment is lost (`Segmented.exists_proveFrom`).
-/

namespace VerifiableDelay

open Form

variable {o : Overflow} {s : Settings} {d : Discriminant} {x : Form} {accelerator : Accelerator}
variable {bound : Option Nat} {r : Run RollingRecorder} {e : Engine RollingRecorder}
variable {c : FormClass d}

/-- **Segments that are joined tile the stretch** if each of them is right. -/
theorem Segment.Joined.tiles {segments : List Segment} {a b : Nat}
    (h : Segment.Joined a segments b) (hright : ∀ t ∈ segments, Segment.Right d c t) :
    Segment.Tiles d c a segments b := by
  induction segments generalizing a with
  | nil => exact h
  | cons t segments ih =>
    obtain ⟨hfirst, hothers⟩ := List.forall_mem_cons.1 hright
    exact ⟨h.1, hfirst, ih h.2 hothers⟩

namespace Segmented

/-! ## What a request takes -/

variable {outcome : Piece → Except DelayError Segment} {segment : Segment}
variable {segments : List Segment}
variable {pieces : List Piece} {level index aligned iterations : Nat}
variable {proof : Proof}

/-- **What is resolved of a plan tiles what is aligned of the request**, by
segments that are no shorter than the shortest. -/
theorem tiles_plan (h : start o s d x accelerator bound = .ok r)
    (hout : ∀ p segment, outcome p = .ok segment → Of s c p segment)
    (haligned : (Rolling.ofSettings s).segmentLength 0 ∣ aligned)
    (hplan : plan (.ofSettings s) aligned = .ok pieces)
    (hsegments : resolveAll outcome pieces = .ok segments) :
    Segment.Tiles d c 0 segments aligned ∧
      ∀ t ∈ segments, (Rolling.ofSettings s).segmentLength 0 ≤ t.length := by
  have hcollects := resolveAll_eq_ok_iff.1 hsegments
  have hjoined : Segment.Joined 0 segments aligned :=
    hcollects.joined (fun p t hp => ⟨(hout p t hp).start_eq, (hout p t hp).length_eq⟩)
      (spans_plan hplan (valid_of_start h).levels_range.1 haligned)
  refine ⟨hjoined.tiles fun t ht => ?_, fun t ht => ?_⟩
  · obtain ⟨p, hp⟩ := hcollects.found_of.2 t ht
    exact (hout p t hp).right
  · obtain ⟨p, hp⟩ := hcollects.found_of.2 t ht
    rw [(hout p t hp).length_eq]
    exact Nat.le_of_dvd (Rolling.segmentLength_pos _ _) (Rolling.segmentLength_zero_dvd _ _)

/-! ## What a request chains -/

/-- **The last stretch is right**: it is squared again from an end that is. -/
theorem right_lastStretch {aligned rest : Nat} (h : start o s d x accelerator bound = .ok r)
    (hfits : (Rolling.ofSettings s).Fits) (hx : Represents d x c) (hh : r.loop.Honest r.engine)
    (he : r.loop.Reaches r.engine e) (haligned : (Rolling.ofSettings s).segmentLength 0 ∣ aligned)
    (hsegment : lastStretch { r with engine := e } aligned rest = .ok segment) :
    segment.start = aligned ∧ segment.length = rest ∧ segment.Right d c := by
  obtain rfl := discriminant_eq h
  simp only [lastStretch, Run.listening, bind_eq_ok_iff] at hsegment
  obtain ⟨first, hfirst, proof, hproof, hsegment⟩ := hsegment
  cases hsegment
  obtain ⟨-, -, rfl⟩ := (endAt_eq_ok_iff h hfits hx.definite hh he haligned).1 hfirst
  have hfirst := hx.along aligned
  obtain ⟨hfaithful, hy⟩ := Alone.square_spec rest hfirst (Parameters.ofLevel 0).stride_pos
  rw [← pow_mul, ← pow_add] at hy
  refine ⟨rfl, rfl, hfirst, hy, ?_⟩
  exact Power.represents_of_prove (Parameters.ofLevel_width_le 0) hfirst hfaithful.truthful hproof

/-- **What a request chains** after the segments of its plan: nothing if they
are all of it, and the last stretch otherwise. -/
def Completes (r : Run RollingRecorder) (segments : List Segment) (aligned rest : Nat)
    (stretch : List Segment) : Prop :=
  rest = 0 ∧ segments ≠ [] ∧ stretch = [] ∨
    (rest = 0 → segments = []) ∧ ∃ last, lastStretch r aligned rest = .ok last ∧ stretch = [last]

/-- What it takes that a request is answered. -/
theorem proveFrom_eq_ok_iff
    (haligned : roundDown iterations (r.listening.layout.segmentLength 0) = aligned) :
    proveFrom r outcome iterations = .ok proof ↔
      ∃ pieces, plan r.listening.layout aligned = .ok pieces ∧
        pieces.length + (if iterations - aligned = 0 ∧ pieces ≠ [] then 0 else 1) ≤
          Chain.maxDepth + 1 ∧ aligned ≤ r.engine.progress.count ∧
        ∃ segments, resolveAll outcome pieces = .ok segments ∧
          ∃ stretch, Completes r segments aligned (iterations - aligned) stretch ∧
            Chain.encode r.discriminant (segments ++ stretch) = .ok proof := by
  have hawait : (∃ n, r.await aligned = .ok n) ↔ aligned ≤ r.engine.progress.count := by
    simp only [Run.await, Engine.await, Progress.await_eq_ok_iff, exists_and_left, exists_eq,
      and_true]
  simp only [proveFrom, haligned, ite_error_eq_ok_iff, bind_eq_ok_iff, Nat.not_lt, ← hawait]
  refine exists_congr fun pieces => and_congr_right fun _ => ?_
  rw [← exists_and_right]
  refine and_congr_right fun _ => exists_congr fun n => and_congr_right fun _ =>
    exists_congr fun segments => and_congr_right fun _ => ?_
  by_cases hall : iterations - aligned = 0 ∧ segments ≠ []
  · rw [if_pos hall, bind_eq_ok_iff]
    simp [Completes, hall, pure_eq_ok_iff]
  · have hnone : iterations - aligned = 0 → segments = [] := by
      intro hzero
      by_contra hne
      exact hall ⟨hzero, hne⟩
    rw [if_neg hall]
    simp only [bind_eq_ok_iff, pure_eq_ok_iff, Completes]
    constructor
    · rintro ⟨last, hlast, _, rfl, hencode⟩
      exact ⟨_, .inr ⟨hnone, last, hlast, rfl⟩, hencode⟩
    · rintro ⟨_, ⟨hzero, hne, -⟩ | ⟨-, last, hlast, rfl⟩, hencode⟩
      · exact absurd ⟨hzero, hne⟩ hall
      · exact ⟨last, hlast, _, rfl, hencode⟩

/-- **What a request chains tiles what it is for.** An empty segment is among
it only if nothing was asked for. -/
theorem tiles_completes {stretch : List Segment} (h : start o s d x accelerator bound = .ok r)
    (hfits : (Rolling.ofSettings s).Fits) (hx : Represents d x c) (hh : r.loop.Honest r.engine)
    (he : r.loop.Reaches r.engine e) (hdvd : (Rolling.ofSettings s).segmentLength 0 ∣ aligned)
    (hle : aligned ≤ iterations)
    (htiles : Segment.Tiles d c 0 segments aligned)
    (hlong : ∀ t ∈ segments, (Rolling.ofSettings s).segmentLength 0 ≤ t.length)
    (hstretch : Completes { r with engine := e } segments aligned (iterations - aligned) stretch) :
    Segment.Tiles d c 0 (segments ++ stretch) iterations ∧
      ∀ t ∈ segments ++ stretch, t.length = 0 → iterations = 0 := by
  have hpositive : ∀ t ∈ segments, t.length ≠ 0 := by
    intro t ht
    exact ((Rolling.segmentLength_pos _ _).trans_le (hlong t ht)).ne'
  rcases hstretch with ⟨hzero, -, rfl⟩ | ⟨hnone, last, hlast, rfl⟩
  · obtain rfl : iterations = aligned := by omega
    rw [List.append_nil]
    exact ⟨htiles, fun t ht hempty => absurd hempty (hpositive t ht)⟩
  · obtain ⟨hstart, hlength, hright⟩ := right_lastStretch h hfits hx hh he hdvd hlast
    refine ⟨Segment.tiles_append htiles (Segment.tiles_singleton hstart hright (by omega)), ?_⟩
    intro t ht hempty
    rcases List.mem_append.1 ht with ht | ht
    · exact absurd hempty (hpositive t ht)
    · obtain rfl := List.mem_singleton.1 ht
      obtain rfl := hnone (by omega)
      have hbegin : 0 = aligned := htiles
      omega

/-! ## When a request is answered -/

/-- **The outcomes suffice** for the first `aligned` squarings: each piece of
them is proven, or lost and not a shortest one. -/
def Suffices (s : Settings) (outcome : Piece → Except DelayError Segment) (aligned : Nat) : Prop :=
  ∀ p : Piece, p.level < s.levels →
    (p.index + 1) * (Rolling.ofSettings s).segmentLength p.level ≤ aligned →
      (∃ segment, outcome p = .ok segment) ∨ 0 < p.level ∧ ∃ i, outcome p = .error (.lapped i)

/-- Then something takes the place of every segment. -/
theorem Suffices.exists_resolve (h : Suffices s outcome aligned) (hlevel : level < s.levels)
    (hle : (index + 1) * (Rolling.ofSettings s).segmentLength level ≤ aligned) :
    ∃ segments, resolve outcome level index = .ok segments := by
  induction level generalizing index with
  | zero =>
    rcases h ⟨0, index⟩ hlevel hle with ⟨segment, hsegment⟩ | ⟨hpos, -⟩
    · exact ⟨[segment], by rw [resolve, hsegment]; rfl⟩
    · exact absurd hpos (Nat.lt_irrefl 0)
  | succ level ih =>
    rcases h ⟨level + 1, index⟩ hlevel hle with ⟨segment, hsegment⟩ | ⟨-, i, hlost⟩
    · exact ⟨[segment], by rw [resolve, hsegment]⟩
    · have hpart : ∀ j < 4, ∃ segments, resolve outcome level (4 * index + j) = .ok segments := by
        intro j hj
        refine ih (Nat.lt_of_succ_lt hlevel) (le_trans ?_ hle)
        rw [Rolling.segmentLength_succ, ← Nat.mul_assoc]
        exact Nat.mul_le_mul_right _ (by omega)
      obtain ⟨first, hfirst⟩ := hpart 0 (by decide)
      obtain ⟨second, hsecond⟩ := hpart 1 (by decide)
      obtain ⟨third, hthird⟩ := hpart 2 (by decide)
      obtain ⟨fourth, hfourth⟩ := hpart 3 (by decide)
      refine ⟨first ++ second ++ third ++ fourth, ?_⟩
      rw [Nat.add_zero] at hfirst
      rw [resolve, hlost]
      simp only [hfirst, hsecond, hthird, hfourth]
      rfl

theorem Suffices.exists_resolveAll (h : Suffices s outcome aligned)
    (hpieces : ∀ p ∈ pieces, p.level < s.levels ∧
      (p.index + 1) * (Rolling.ofSettings s).segmentLength p.level ≤ aligned) :
    ∃ segments, resolveAll outcome pieces = .ok segments := by
  induction pieces with
  | nil => exact ⟨[], rfl⟩
  | cons p pieces ih =>
    obtain ⟨⟨hlevel, hle⟩, hothers⟩ := List.forall_mem_cons.1 hpieces
    obtain ⟨these, hthese⟩ := h.exists_resolve hlevel hle
    obtain ⟨those, hthose⟩ := ih hothers
    exact ⟨these ++ those, by rw [resolveAll, hthese, hthose]; rfl⟩

/-- **The last stretch is proven** from an end that was kept, if there is a
challenge. -/
theorem exists_lastStretch (h : start o s d x accelerator bound = .ok r)
    (hfits : (Rolling.ofSettings s).Fits) (hx : Represents d x c)
    (hh : r.loop.Honest r.engine) (he : r.loop.Reaches r.engine e)
    (hdvd : (Rolling.ofSettings s).segmentLength 0 ∣ aligned) (hle : aligned ≤ iterations)
    (hdone : aligned ≤ e.done)
    (hroom : aligned < s.maxCheckpoints * (Rolling.ofSettings s).segmentLength 0)
    (hchallenge : Challenge.prime d (squareTimes d aligned x) (squareTimes d iterations x) ≠
      .error .noPrime) :
    ∃ last, lastStretch { r with engine := e } aligned (iterations - aligned) = .ok last := by
  obtain rfl := discriminant_eq h
  have hfirst := (endAt_eq_ok_iff h hfits hx.definite hh he hdvd).2 ⟨hdone, hroom, rfl⟩
  obtain ⟨hfaithful, hy⟩ := Alone.square_spec (iterations - aligned) (hx.along aligned)
    (Parameters.ofLevel 0).stride_pos
  rw [← pow_mul, ← pow_add, Nat.add_sub_cancel' hle] at hy
  rw [Challenge.prime_eq_of_represents (hx.squareTimes _) (hx.along _) (hx.squareTimes _) hy]
    at hchallenge
  obtain ⟨modulus, hmodulus⟩ := Challenge.exists_prime hchallenge
  obtain ⟨proof, hproof, -⟩ := Power.prove_eq (Parameters.ofLevel_width_le 0) hfaithful hmodulus
  simp only [lastStretch, Run.listening, bind_eq_ok_iff, pure_eq_ok_iff]
  exact ⟨_, _, hfirst, proof, hproof, rfl⟩

/-- Once it is, there is something to chain, of one segment more at most. -/
theorem exists_completes {rest : Nat} {last : Segment}
    (hlast : lastStretch r aligned rest = .ok last) (segments : List Segment) :
    ∃ stretch, Completes r segments aligned rest stretch ∧ stretch.length ≤ 1 ∧
      segments ++ stretch ≠ [] := by
  by_cases hall : rest = 0 ∧ segments ≠ []
  · exact ⟨[], .inl ⟨hall.1, hall.2, rfl⟩, Nat.zero_le 1, by simp [hall.2]⟩
  · refine ⟨[last], .inr ⟨fun hzero => ?_, last, hlast, rfl⟩, le_rfl, by simp⟩
    by_contra hne
    exact hall ⟨hzero, hne⟩

/-- **There is a plan for half of all words**: no segment that valid settings
have is longer than a quarter of them. -/
theorem exists_plan (hs : s.Valid o) (hle : aligned ≤ 2 ^ (63 : Nat)) :
    ∃ pieces, plan (.ofSettings s) aligned = .ok pieces := by
  have hlevels := hs.levels_range
  have hbits := hs.baseBits_range
  have hexponent : s.baseBits + 2 * (s.levels - 1) ≤ 62 := by omega
  have hlongest : longest (.ofSettings s) ≤ 2 ^ (62 : Nat) :=
    Nat.pow_le_pow_right (by decide) hexponent
  exact (exists_plan_iff hlevels.1).2
    (Nat.lt_of_le_of_lt (Nat.add_le_add hle hlongest) (by decide))

/-- **A request is answered** if the outcomes suffice for it, the run has got
so far, and a proof can carry as many shortest segments. -/
theorem exists_proveFrom (hbits : d.bits ≤ Discriminant.maxBits) (hd : Squarefree d.value)
    (h : start o s d x accelerator bound = .ok r) (hfits : (Rolling.ofSettings s).Fits)
    (hx : Represents d x c) (hh : r.loop.Honest r.engine) (he : r.loop.Reaches r.engine e)
    (hlt : iterations < wordCount)
    (haligned : roundDown iterations ((Rolling.ofSettings s).segmentLength 0) = aligned)
    (hout : ∀ p segment, outcome p = .ok segment → Of s c p segment)
    (hsuffices : Suffices s outcome aligned) (hcount : aligned ≤ e.progress.count)
    (hroom : aligned < s.maxCheckpoints * (Rolling.ofSettings s).segmentLength 0)
    (hfew : aligned ≤ Chain.maxDepth * (Rolling.ofSettings s).segmentLength 0)
    (hchallenge : Challenge.prime d (squareTimes d aligned x) (squareTimes d iterations x) ≠
      .error .noPrime) :
    ∃ proof, proveFrom { r with engine := e } outcome iterations = .ok proof := by
  have hlayout := layout_eq h he
  have hdvd := haligned ▸ dvd_roundDown iterations ((Rolling.ofSettings s).segmentLength 0)
  have hle := haligned ▸ roundDown_le iterations ((Rolling.ofSettings s).segmentLength 0)
  obtain ⟨recorder, -, hrun⟩ := start_eq_ok_iff.1 h
  have hdone := hcount.trans (Run.sound hrun hx.definite he).published
  have hvalid := valid_of_start h
  have hshort : aligned ≤ 2 ^ (63 : Nat) := by
    have hbase : (Rolling.ofSettings s).segmentLength 0 ≤ 2 ^ (40 : Nat) :=
      Nat.pow_le_pow_right (by decide) hvalid.baseBits_range.2
    exact hfew.trans ((Nat.mul_le_mul_left _ hbase).trans (by decide))
  obtain ⟨pieces, hpieces⟩ := exists_plan hvalid hshort
  obtain ⟨segments, hsegments⟩ : ∃ segments, resolveAll outcome pieces = .ok segments :=
    hsuffices.exists_resolveAll (spans_plan hpieces hvalid.levels_range.1 hdvd).within.2
  have hplan := (resolveAll_eq_ok_iff.1 hsegments).found_of.1
  obtain ⟨htiles, hlong⟩ := tiles_plan h hout hdvd hpieces hsegments
  have hsegmentCount : segments.length ≤ Chain.maxDepth := by
    have hlength := htiles.length_mul_le hlong
    rw [Nat.zero_add] at hlength
    exact Nat.le_of_mul_le_mul_right (hlength.trans hfew) (Rolling.segmentLength_pos _ _)
  obtain ⟨last, hlast⟩ := exists_lastStretch h hfits hx hh he hdvd hle hdone hroom hchallenge
  obtain ⟨stretch, hstretch, hshort, hne⟩ := exists_completes hlast segments
  obtain ⟨hwhole, -⟩ := tiles_completes h hfits hx hh he hdvd hle htiles hlong hstretch
  obtain ⟨proof, hproof⟩ := hwhole.exists_encode hbits hd hlt hne
    (by rw [List.length_append]; omega)
  have hdisc := discriminant_eq h
  refine ⟨proof, (proveFrom_eq_ok_iff ?_).2
    ⟨pieces, ?_, ?_, hcount, segments, hsegments, stretch, hstretch, hdisc ▸ hproof⟩⟩
  · simp only [Run.listening, hlayout, haligned]
  · simp only [Run.listening, hlayout]
    exact hpieces
  · refine Nat.add_le_add (hplan.trans hsegmentCount) ?_
    split <;> decide

/-- **What is chained of right segments is accepted**, wherever they are from. -/
theorem accepted_of_right (hbits : d.bits ≤ Discriminant.maxBits)
    (hsquarefree : Squarefree d.value.natAbs) (hx : x.Definite d.value)
    (hlt : iterations < wordCount)
    (hnothing : iterations = 0 → Challenge.prime d x x ≠ .error .noPrime)
    (hstart : start o s d x accelerator bound = .ok r) (hfits : (Rolling.ofSettings s).Fits)
    (hh : r.loop.Honest r.engine) (he : r.loop.Reaches r.engine e)
    (hout : ∀ p segment, outcome p = .ok segment → Of s (x.classOf d) p segment)
    (hproof : proveFrom { r with engine := e } outcome iterations = .ok proof) :
    ∃ start, x.encode d = .ok start ∧ (squareTimes d iterations x).encode d = .ok proof.output ∧
      proof.depth ≤ Chain.maxDepth ∧
      Verify.chain d start proof.bytes iterations proof.depth = .ok true := by
  have hd : Squarefree d.value := Int.squarefree_natAbs.1 hsquarefree
  have hrep := Represents.of_squarefree hd hx
  have hlayout := layout_eq hstart he
  obtain ⟨pieces, hpieces, -, -, segments, hsegments, stretch, hstretch, hencode⟩ :=
    (proveFrom_eq_ok_iff rfl).1 hproof
  simp only [Run.listening, hlayout] at hpieces hstretch
  rw [show Run.discriminant { r with engine := e } = d from (discriminant_eq hstart :)] at hencode
  obtain ⟨htiles, hlong⟩ := tiles_plan hstart hout (dvd_roundDown _ _) hpieces hsegments
  obtain ⟨hwhole, hempty⟩ := tiles_completes hstart hfits hrep hh he (dvd_roundDown _ _)
    (roundDown_le _ _) htiles hlong hstretch
  -- only an empty request has an empty segment, which leads from the start to itself
  have hchallenge : ∀ t ∈ segments ++ stretch, t.length = 0 →
      Challenge.prime d t.x t.y ≠ .error .noPrime := by
    intro t ht hzero
    have hiterations := hempty t ht hzero
    have hplace : t.start = 0 := by
      have := hwhole.within.2 t ht
      omega
    rw [(hwhole.right t ht).prime_of_empty hzero (by simpa [hplace] using hrep)]
    exact hnothing hiterations
  obtain ⟨bytes, hbytes, hout, -, hdepth, hchain⟩ :=
    hwhole.exists_chain hbits hd hrep hlt hchallenge hencode
  exact ⟨bytes, hbytes, hout, hdepth, hchain⟩

/-- What a request finds of a segment as the run is now was proven by a prover
that looked at it just now. -/
theorem segmentAt_of_found {p : Piece} (h : start o s d x accelerator bound = .ok r)
    (hfound : found o { r with engine := e } p = .ok segment) :
    segmentAt o d s.batchSize (.at e) p = .ok segment := by
  obtain ⟨recorder, -, hrun⟩ := start_eq_ok_iff.1 h
  obtain ⟨-, rfl⟩ := Run.start_eq_ok_iff.1 hrun
  rw [found] at hfound
  split at hfound
  · cases hfound
  · exact hfound

/-- **What a run hands out as it is now is accepted**, at whatever moment it is
asked. -/
theorem accepted_of_prove (hbits : d.bits ≤ Discriminant.maxBits)
    (hsquarefree : Squarefree d.value.natAbs) (hx : x.Definite d.value)
    (hlt : iterations < wordCount)
    (hnothing : iterations = 0 → Challenge.prime d x x ≠ .error .noPrime)
    (hstart : start o s d x accelerator bound = .ok r)
    (hwords : o = .wraps → (Rolling.ofSettings s).Fits) (hh : r.loop.Honest r.engine)
    (he : r.loop.Reaches r.engine e)
    (hproof : prove o { r with engine := e } iterations = .ok proof) :
    ∃ start, x.encode d = .ok start ∧ (squareTimes d iterations x).encode d = .ok proof.output ∧
      proof.depth ≤ Chain.maxDepth ∧
      Verify.chain d start proof.bytes iterations proof.depth = .ok true := by
  have hrep := Represents.of_squarefree (Int.squarefree_natAbs.1 hsquarefree) hx
  have hfits := fits_of_start hstart hwords
  refine accepted_of_right hbits hsquarefree hx hlt hnothing hstart hfits hh he ?_ hproof
  intro p segment hsegment
  exact of_segmentAt hstart hfits hrep hh (Look.inOrder_at he) (segmentAt_of_found hstart hsegment)

/-- Settings with a window of four segments of 64 squarings. -/
def settings1823 : Settings := { batchSize := 50, window := 4, levels := 2, baseBits := 6 }

/-- A run of 300 squarings without a fast path. -/
def run1823 : Run RollingRecorder where
  settings := settings1823
  x := form1823.reduced
  loop := { discriminant := discriminant1823, listener := RollingRecorder.listener
            batchSize := 50, bound := some 300 }
  engine := Loop.start form1823.reduced ((RollingRecorder.empty settings1823).deliver form1823 0)
    false

/-- The run as it completes a shortest segment. -/
def passing1823 (index : Nat) : Engine RollingRecorder :=
  run1823.loop.runTo ((index + 1) * 64) run1823.engine

/-- A shortest segment is proven as it is completed, and the one that four of
them make is lost. -/
def outcome1823 (p : Piece) : Except DelayError Segment :=
  if p.level = 0 then segmentAt .wraps discriminant1823 50 (.at (passing1823 p.index)) p
  else .error (.lapped 0)

theorem start1823 :
    start .wraps settings1823 discriminant1823 form1823 .absent (some 300) = .ok run1823 := rfl

theorem fits1823 : (Rolling.ofSettings settings1823).Fits := by decide

theorem reaches_passing1823 (index : Nat) :
    run1823.loop.Reaches run1823.engine (passing1823 index) :=
  run1823.loop.reaches_runTo ((index + 1) * 64) run1823.engine

/-- What is found is proven at the moment the segment is completed. -/
theorem segmentAt_of_outcome1823 {p : Piece} {segment : Segment}
    (h : outcome1823 p = .ok segment) :
    segmentAt .wraps discriminant1823 settings1823.batchSize (.at (passing1823 p.index)) p =
      .ok segment := by
  unfold outcome1823 at h
  split at h
  · exact h
  · cases h

/-- All that the first 256 squarings take is proven, or made up for. -/
theorem suffices1823 : Suffices settings1823 outcome1823 256 := by
  have hrep := Represents.of_squarefree (Int.squarefree_natAbs.1 squarefree1823) definite1823
  have hh : run1823.loop.unaided.Honest run1823.engine := Loop.honest_unaided
  have hmoments : ∀ index < 4, (index + 1) * 64 ≤ (passing1823 index).done ∧
      (passing1823 index).done < 300 ∧
      (passing1823 index).progress.count < (index + 4) * 64 - 50 := by decide +kernel
  rintro ⟨level, index⟩ hlevel hle
  cases level with
  | zero =>
    replace hle : (index + 1) * 64 ≤ 256 := hle
    obtain ⟨hdone, hroom, hlt⟩ := hmoments index (by omega)
    have hword : (index + 4) * 64 < wordCount :=
      Nat.lt_of_le_of_lt (m := 512) (by omega) (by decide)
    have hchallenge := challenge1823 (16 * index) (16 * (index + 1))
    rw [show 4 * (16 * index) = index * 64 by omega,
      show 4 * (16 * (index + 1)) = (index + 1) * 64 by omega] at hchallenge
    exact .inl (exists_segmentAt start1823 fits1823 hrep hh (reaches_passing1823 index) hlevel hdone
      (hroom.trans (by decide)) (limit_of_lt hword) hlt hchallenge)
  | succ level => exact .inr ⟨Nat.succ_pos level, 0, rfl⟩

/-- A request for all of it is answered. -/
theorem exists_proveFrom_1823 :
    ∃ proof, proveFrom run1823.finish outcome1823 300 = .ok proof := by
  have hd := Int.squarefree_natAbs.1 squarefree1823
  have hrep := Represents.of_squarefree hd definite1823
  have hh : run1823.loop.unaided.Honest run1823.engine := Loop.honest_unaided
  have hof : ∀ p segment, outcome1823 p = .ok segment →
      Of settings1823 (form1823.classOf discriminant1823) p segment :=
    fun p segment hsegment => of_segmentAt start1823 fits1823 hrep hh
      (Look.inOrder_at (reaches_passing1823 p.index)) (segmentAt_of_outcome1823 hsegment)
  have hproof := exists_proveFrom (by decide) hd start1823 fits1823 hrep hh run1823.reaches_finish
    (by decide) (by decide) hof suffices1823 (by decide +kernel) (by decide) (by decide)
    (challenge1823 64 75)
  rwa [Run.with_finish_engine] at hproof

end Segmented

end VerifiableDelay
