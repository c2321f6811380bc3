import VerifiableDelay.Proofs.Proof.Segmented
/-!
# A request is tiled, and as shortly as possible

Segments that are joined by where they lie are joined by their forms as well:
each takes its own from the ends of shortest segments, and an end that was
found once is found the same when the request is made
(`Segmented.endAt_of_reaches`). So **what a request chains leads from one
segment to the next**, whatever was lost on the way (`Segmented.FoundBy.tiled`).
No fast path has to be honest for this. Only a request within a longest segment
of the last word has no plan, and no answer (`Segmented.no_plan_for_last_word`).
-/

namespace VerifiableDelay

open Form

/-- Of segments that are joined each starts where the one before it ends. -/
theorem Segment.Joined.isChain {segments : List Segment} {a b : Nat}
    (h : Segment.Joined a segments b) :
    segments.IsChain fun t u => u.start = t.start + t.length := by
  induction segments generalizing a with
  | nil => exact .nil
  | cons t segments ih =>
    obtain ⟨rfl, hrest⟩ := h
    refine List.isChain_cons.2 ⟨fun u hu => ?_, ih hrest⟩
    obtain ⟨others, rfl⟩ := List.head?_eq_some_iff.1 hu
    exact hrest.1

theorem Segment.joined_append {segments others : List Segment} {a b c : Nat}
    (h : Segment.Joined a segments b) (h' : Segment.Joined b others c) :
    Segment.Joined a (segments ++ others) c := by
  induction segments generalizing a with
  | nil => exact (show a = b from h) ▸ h'
  | cons t segments ih => exact ⟨h.1, ih h.2⟩

/-- The last of them ends where the stretch does. -/
theorem Segment.Joined.getLast {inner : List Segment} {last : Segment} {a b : Nat}
    (h : Segment.Joined a (inner ++ [last]) b) : last.start + last.length = b := by
  induction inner generalizing a with
  | nil =>
    obtain ⟨rfl, hend⟩ := h
    exact hend
  | cons t inner ih => exact ih h.2

namespace Segmented

variable {o : Overflow} {s : Settings} {d : Discriminant} {x f : Form} {accelerator : Accelerator}
variable {bound : Option Nat} {r : Run RollingRecorder} {e e' : Engine RollingRecorder}
variable {outcome : Piece → Except DelayError Segment} {segment last : Segment}
variable {segments stretch : List Segment} {k : Look RollingRecorder} {p : Piece}
variable {pieces : List Piece} {aligned i n rest : Nat}

/-! ## Ends that are found again -/

theorem endAt_eq_ok_iff_end? {r : RollingRecorder} :
    endAt r i = .ok f ↔ r.end? (i / r.layout.segmentLength 0) = some f := by
  unfold endAt
  split
  · rename_i g hg
    rw [hg, Except.ok.injEq, Option.some.injEq]
  · rename_i hnone
    rw [hnone]
    exact ⟨fun h => (by cases h), fun h => (by cases h)⟩

/-- **An end that is found once is found ever after.** -/
theorem endAt_of_reaches (h : start o s d x accelerator bound = .ok r)
    (he : r.loop.Reaches r.engine e) (he' : r.loop.Reaches e e')
    (hf : endAt e.listening i = .ok f) : endAt e'.listening i = .ok f := by
  obtain ⟨recorder, hrecorder, hrun⟩ := start_eq_ok_iff.1 h
  rw [endAt_eq_ok_iff_end?, layout_eq h he] at hf
  rw [endAt_eq_ok_iff_end?, layout_eq h (he.trans he')]
  exact RollingRecorder.end?_of_reaches hrecorder hrun he he' hf

/-- **The ends of a segment** that is of a piece are found by whoever looks
after its prover did. -/
structure Placed (s : Settings) (e : Engine RollingRecorder) (p : Piece) (segment : Segment) :
    Prop where
  start_eq : segment.start = p.index * (Rolling.ofSettings s).segmentLength p.level
  length_eq : segment.length = (Rolling.ofSettings s).segmentLength p.level
  x : endAt e.listening segment.start = .ok segment.x
  y : endAt e.listening (segment.start + segment.length) = .ok segment.y

theorem placed_of_segmentAt (h : start o s d x accelerator bound = .ok r)
    (hk : k.InOrder r.loop r.engine) (he : r.loop.Reaches k.ended e)
    (hsegment : segmentAt o d s.batchSize k p = .ok segment) : Placed s e p segment := by
  simp only [segmentAt_eq_ok_iff, layout_eq h hk.opened] at hsegment
  obtain ⟨first, hfirst, final, hfinal, n, -, -, proof, -, rfl⟩ := hsegment
  -- each end was found at a moment of its own, and `e` is past both
  exact ⟨rfl, rfl, endAt_of_reaches h hk.opened (hk.ended.trans he) hfirst,
    endAt_of_reaches h (hk.opened.trans hk.ended) he hfinal⟩

/-- The last stretch starts at an end, too. -/
theorem lastStretch_eq_ok (h : lastStretch r aligned rest = .ok segment) :
    segment.start = aligned ∧ segment.length = rest ∧
      endAt r.listening aligned = .ok segment.x := by
  simp only [lastStretch, bind_eq_ok_iff] at h
  obtain ⟨first, hfirst, proof, -, h⟩ := h
  cases h
  exact ⟨rfl, rfl, hfirst⟩

/-! ## What is chained -/

/-- **Segments whose ends are found are joined by their forms**, if they are by
where they lie. -/
theorem isChain_of_joined {a b : Nat} (h : Segment.Joined a segments b)
    (hx : ∀ t ∈ segments, endAt e.listening t.start = .ok t.x)
    (hy : ∀ t ∈ segments, endAt e.listening (t.start + t.length) = .ok t.y) :
    segments.IsChain fun t u => t.y = u.x := by
  refine h.isChain.imp_of_mem_imp fun t u ht hu hnext => ?_
  have hsame := hx u hu
  rw [hnext, hy t ht] at hsame
  exact Except.ok.inj hsame

/-- **What a request finds at some moment** was proven by provers that had
looked before it. -/
def FoundBy (o : Overflow) (r : Run RollingRecorder) (e : Engine RollingRecorder)
    (d : Discriminant) (batchSize : Nat) (outcome : Piece → Except DelayError Segment) : Prop :=
  ∀ p segment, outcome p = .ok segment → ∃ k, k.InOrder r.loop r.engine ∧
    r.loop.Reaches k.ended e ∧ segmentAt o d batchSize k p = .ok segment

theorem FoundBy.placed (hfound : FoundBy o r e d s.batchSize outcome)
    (h : start o s d x accelerator bound = .ok r) (hp : outcome p = .ok segment) :
    Placed s e p segment := by
  obtain ⟨k, hk, he, hsegment⟩ := hfound p segment hp
  exact placed_of_segmentAt h hk he hsegment

/-- **The last stretch is joined** to what is collected, by its form as well. -/
theorem joined_completes (hjoined : Segment.Joined 0 segments aligned)
    (hx : ∀ t ∈ segments, endAt e.listening t.start = .ok t.x)
    (hy : ∀ t ∈ segments, endAt e.listening (t.start + t.length) = .ok t.y)
    (hle : aligned ≤ n)
    (hstretch : Completes { r with engine := e } segments aligned (n - aligned) stretch) :
    Segment.Joined 0 (segments ++ stretch) n ∧
      (segments ++ stretch).IsChain fun t u => t.y = u.x := by
  have hchain := isChain_of_joined hjoined hx hy
  rcases hstretch with ⟨hzero, -, rfl⟩ | ⟨-, last, hlast, rfl⟩
  · obtain rfl : n = aligned := by omega
    rw [List.append_nil]
    exact ⟨hjoined, hchain⟩
  · obtain ⟨hstart, hlength, hfirst⟩ := lastStretch_eq_ok hlast
    have hlastJoined : Segment.Joined aligned [last] n :=
      ⟨hstart, (by omega : aligned + last.length = n)⟩
    refine ⟨Segment.joined_append hjoined hlastJoined,
      hchain.append (.singleton last) fun t ht u hu => ?_⟩
    obtain rfl : last = u := Option.some.inj hu
    -- the last of the segments ends where the stretch starts: it is one end
    obtain ⟨inner, rfl⟩ := List.getLast?_eq_some_iff.1 ht
    have hend := hy t (by simp)
    rw [hjoined.getLast] at hend
    exact Except.ok.inj (hend.symm.trans hfirst)

/-- Nothing that is chained is empty, unless nothing was asked for. -/
theorem length_pos_of_completes (hjoined : Segment.Joined 0 segments aligned) (hle : aligned ≤ n)
    (hlong : ∀ t ∈ segments, 0 < t.length)
    (hstretch : Completes r segments aligned (n - aligned) stretch) (hn : 0 < n) :
    ∀ t ∈ segments ++ stretch, 0 < t.length := by
  intro t ht
  rcases List.mem_append.1 ht with ht | ht
  · exact hlong t ht
  · rcases hstretch with ⟨-, -, rfl⟩ | ⟨hnone, last, hlast, rfl⟩
    · cases ht
    · obtain rfl := List.mem_singleton.1 ht
      rw [(lastStretch_eq_ok hlast).2.1]
      -- an empty stretch is only chained where there is nothing else
      by_contra hzero
      obtain rfl := hnone (by omega)
      have hbegin : 0 = aligned := hjoined
      omega

/-- What is collected has its ends where a later request finds them. -/
theorem FoundBy.exists_placed (hfound : FoundBy o r e d s.batchSize outcome)
    (h : start o s d x accelerator bound = .ok r) (hcollects : Collects outcome pieces segments) :
    ∀ t ∈ segments, ∃ p, Placed s e p t := by
  intro t ht
  obtain ⟨p, hp⟩ := hcollects.found_of.2 t ht
  exact ⟨p, hfound.placed h hp⟩

/-- **It is joined where the pieces are**, whatever was lost. -/
theorem FoundBy.joined {a b : Nat} (hfound : FoundBy o r e d s.batchSize outcome)
    (h : start o s d x accelerator bound = .ok r) (hcollects : Collects outcome pieces segments)
    (hspans : Spans (.ofSettings s) a pieces b) : Segment.Joined a segments b := by
  refine hcollects.joined (fun p t hp => ?_) hspans
  have ht := hfound.placed h hp
  exact ⟨ht.start_eq, ht.length_eq⟩

/-- **What is chained tiles the request**, joined by its forms. -/
theorem FoundBy.tiled (hfound : FoundBy o r e d s.batchSize outcome)
    (h : start o s d x accelerator bound = .ok r)
    (haligned : (Rolling.ofSettings s).segmentLength 0 ∣ aligned) (hle : aligned ≤ n)
    (hplan : plan (.ofSettings s) aligned = .ok pieces)
    (hcollects : Collects outcome pieces segments)
    (hstretch : Completes { r with engine := e } segments aligned (n - aligned) stretch) :
    Segment.Joined 0 (segments ++ stretch) n ∧ (0 < n → ∀ t ∈ segments ++ stretch, 0 < t.length) ∧
      (segments ++ stretch).IsChain fun t u => t.y = u.x := by
  have hplaced := hfound.exists_placed h hcollects
  have hjoined := hfound.joined h hcollects
    (spans_plan hplan (valid_of_start h).levels_range.1 haligned)
  have hx : ∀ t ∈ segments, endAt e.listening t.start = .ok t.x := by
    intro t ht
    obtain ⟨p, hp⟩ := hplaced t ht
    exact hp.x
  have hy : ∀ t ∈ segments, endAt e.listening (t.start + t.length) = .ok t.y := by
    intro t ht
    obtain ⟨p, hp⟩ := hplaced t ht
    exact hp.y
  have hlong : ∀ t ∈ segments, 0 < t.length := by
    intro t ht
    obtain ⟨p, hp⟩ := hplaced t ht
    rw [hp.length_eq]
    exact Rolling.segmentLength_pos _ _
  obtain ⟨hwhole, hchain⟩ := joined_completes hjoined hx hy hle hstretch
  exact ⟨hwhole, length_pos_of_completes hjoined hle hlong hstretch, hchain⟩

/-- An answer encodes what is collected and the last stretch. -/
theorem exists_collects_of_proveFrom {proof : Proof} (h : start o s d x accelerator bound = .ok r)
    (he : r.loop.Reaches r.engine e)
    (haligned : roundDown n ((Rolling.ofSettings s).segmentLength 0) = aligned)
    (hproof : proveFrom { r with engine := e } outcome n = .ok proof) :
    ∃ pieces segments stretch, plan (.ofSettings s) aligned = .ok pieces ∧
      Collects outcome pieces segments ∧
      Completes { r with engine := e } segments aligned (n - aligned) stretch ∧
      Chain.encode d (segments ++ stretch) = .ok proof := by
  subst haligned
  obtain ⟨pieces, hpieces, -, -, segments, hsegments, stretch, hstretch, hencode⟩ :=
    (proveFrom_eq_ok_iff rfl).1 hproof
  simp only [Run.listening, layout_eq h he] at hpieces hstretch
  rw [show Run.discriminant { r with engine := e } = d from (discriminant_eq h :)] at hencode
  exact ⟨pieces, segments, stretch, hpieces, resolveAll_eq_ok_iff.1 hsegments, hstretch, hencode⟩

/-- Where there is no plan nothing is looked for. -/
theorem proveFrom_eq_overflow (h : start o s d x accelerator bound = .ok r)
    (he : r.loop.Reaches r.engine e)
    (haligned : roundDown n ((Rolling.ofSettings s).segmentLength 0) = aligned)
    (hplan : plan (.ofSettings s) aligned = .error .overflow) :
    proveFrom { r with engine := e } outcome n = .error .overflow := by
  subst haligned
  refine bind_eq_error_iff.2 (.inl ?_)
  simp only [Run.listening, layout_eq h he]
  exact hplan

/-! ## Requests of any length -/

/-- A plan spans what it is for, in every layout that has a level. -/
theorem spans_plan_iff {layout : Rolling} (hplan : plan layout aligned = .ok pieces)
    (haligned : layout.segmentLength 0 ∣ aligned) :
    Spans layout 0 pieces aligned ↔ 0 < layout.levels ∨ aligned = 0 := by
  constructor
  · intro h
    by_cases hlevels : layout.levels = 0
    · rw [plan, hlevels] at hplan
      obtain rfl := Except.ok.inj hplan
      exact .inr (show 0 = aligned from h).symm
    · exact .inl (Nat.pos_of_ne_zero hlevels)
  · rintro (hlevels | rfl)
    · exact spans_plan hplan hlevels haligned
    · -- nothing is spanned by no pieces, and a plan has no more
      have hnone : Spans layout 0 [] 0 := rfl
      have hlength := length_plan_le hplan hnone
      rw [List.eq_nil_of_length_eq_zero (Nat.le_zero.1 hlength)]
      exact hnone

/-- **A request is tiled exactly, and as shortly as possible**, and so is what
takes the place of lost segments, unless it is so near the last word that a
sum leaves its word. In a layout that has a level there is a plan just if one
of its longest segments more would end at a word. A plan for whole shortest
segments spans them, and no pieces that do, in whatever order they are listed,
are fewer. Now let a request be made at any moment of any run with such a
layout. What it finds was proven by provers that had looked before, and any of
the others may be lost. If there is no plan, there is no answer. If there is,
and no shortest segment is lost, the work of the request ends. It ends with
what is resolved of the plan, and this lies end to end with the last stretch,
from the start to where the request ends: none of it is empty, and each starts
at the form that the one before it ends at. It is this that an answer
encodes. -/
theorem request_is_tiled (layout : Rolling) (n : Nat) :
    let aligned := roundDown n (layout.segmentLength 0)
    (0 < layout.levels →
      ((∃ pieces, plan layout aligned = .ok pieces) ↔ aligned + longest layout < wordCount) ∧
      (plan layout aligned = .error .overflow ↔ wordCount ≤ aligned + longest layout)) ∧
    (∀ pieces, plan layout aligned = .ok pieces →
      (Spans layout 0 pieces aligned ↔ 0 < layout.levels ∨ aligned = 0) ∧
      ∀ others ordered : List Piece, others.Perm ordered → Spans layout 0 ordered aligned →
        pieces.length ≤ others.length) ∧
    ∀ (o : Overflow) (s : Settings) (d : Discriminant) (x : Form) (accelerator : Accelerator)
      (bound : Option Nat) (r : Run RollingRecorder) (e : Engine RollingRecorder)
      (outcome : Piece → Except DelayError Segment),
      Rolling.ofSettings s = layout → start o s d x accelerator bound = .ok r →
      r.loop.Reaches r.engine e → FoundBy o r e d s.batchSize outcome →
      (wordCount ≤ aligned + longest layout →
        proveFrom { r with engine := e } outcome n = .error .overflow) ∧
      (∀ pieces, plan layout aligned = .ok pieces →
        (Suffices s outcome aligned → ∃ segments, Collects outcome pieces segments) ∧
        (∀ segments, resolveAll outcome pieces = .ok segments ↔
          Collects outcome pieces segments) ∧
        ∀ segments stretch, Collects outcome pieces segments →
          Completes { r with engine := e } segments aligned (n - aligned) stretch →
          Segment.Joined 0 (segments ++ stretch) n ∧
          (0 < n → ∀ t ∈ segments ++ stretch, 0 < t.length) ∧
          (segments ++ stretch).IsChain fun t u => t.y = u.x) ∧
      ∀ proof, proveFrom { r with engine := e } outcome n = .ok proof →
        ∃ pieces segments stretch, plan layout aligned = .ok pieces ∧
          Collects outcome pieces segments ∧
          Completes { r with engine := e } segments aligned (n - aligned) stretch ∧
          Chain.encode d (segments ++ stretch) = .ok proof := by
  intro aligned
  have hdvd : layout.segmentLength 0 ∣ aligned := dvd_roundDown _ _
  refine ⟨fun hlevels => ⟨exists_plan_iff hlevels, plan_eq_overflow_iff hlevels⟩,
    fun pieces hplan => ⟨spans_plan_iff hplan hdvd, ?_⟩, ?_⟩
  · intro others ordered hperm hspans
    rw [hperm.length_eq]
    exact length_plan_le hplan hspans
  · rintro o s d x accelerator bound r e outcome rfl h he hfound
    have hlevels : 0 < s.levels := (valid_of_start h).levels_range.1
    refine ⟨fun hlong => ?_, fun pieces hplan => ⟨fun hsuffices => ?_,
      fun segments => resolveAll_eq_ok_iff, ?_⟩, ?_⟩
    · exact proveFrom_eq_overflow h he rfl ((plan_eq_overflow_iff hlevels).2 hlong)
    · obtain ⟨segments, hsegments⟩ :=
        hsuffices.exists_resolveAll (spans_plan hplan hlevels hdvd).within.2
      exact ⟨segments, resolveAll_eq_ok_iff.1 hsegments⟩
    · intro segments stretch hcollects hstretch
      exact hfound.tiled h hdvd (roundDown_le _ _) hplan hcollects hstretch
    · intro proof hproof
      exact exists_collects_of_proveFrom h he rfl hproof

theorem foundBy1823 : FoundBy .wraps run1823 run1823.finish.engine discriminant1823
    settings1823.batchSize outcome1823 := fun p _ hsegment =>
  ⟨Look.at (passing1823 p.index), Look.inOrder_at (reaches_passing1823 p.index),
    run1823.reaches_finish_of_runTo ((p.index + 1) * 64), segmentAt_of_outcome1823 hsegment⟩

/-- Three levels of segments of 64 squarings and more. -/
def layout620 : Rolling := { baseBits := 6, window := 20, levels := 3 }

/-- Of 1500 squarings 1472 take five pieces and no fewer. Of 300 squarings the
run lost the one piece that is planned for, and what is collected in its place
lies end to end with the last 44. -/
theorem request_is_tiled_300 :
    plan layout620 1472 = .ok [⟨2, 0⟩, ⟨1, 4⟩, ⟨0, 20⟩, ⟨0, 21⟩, ⟨0, 22⟩] ∧
      (∀ others, Spans layout620 0 others 1472 → 5 ≤ others.length) ∧
      plan (.ofSettings settings1823) 256 = .ok [⟨1, 0⟩] ∧
      outcome1823 ⟨1, 0⟩ = .error (.lapped 0) ∧
      ∃ segments stretch, Collects outcome1823 [⟨1, 0⟩] segments ∧
        Completes run1823.finish segments 256 44 stretch ∧
        Segment.Joined 0 (segments ++ stretch) 300 ∧
        (segments ++ stretch).IsChain fun t u => t.y = u.x := by
  have hfive : plan layout620 1472 = .ok [⟨2, 0⟩, ⟨1, 4⟩, ⟨0, 20⟩, ⟨0, 21⟩, ⟨0, 22⟩] := by
    decide +kernel
  have hone : plan (.ofSettings settings1823) 256 = .ok [⟨1, 0⟩] := by decide +kernel
  obtain ⟨-, hfewest, -⟩ := request_is_tiled layout620 1500
  obtain ⟨-, -, hrun⟩ := request_is_tiled (.ofSettings settings1823) 300
  obtain ⟨-, hwork, hencode⟩ := hrun .wraps settings1823 discriminant1823 form1823 .absent
    (some 300) run1823 run1823.finish.engine outcome1823 rfl start1823 run1823.reaches_finish
    foundBy1823
  obtain ⟨proof, hproof⟩ := exists_proveFrom_1823
  rw [← Run.with_finish_engine] at hproof
  obtain ⟨pieces, segments, stretch, hpieces, hcollects, hstretch, -⟩ := hencode proof hproof
  obtain rfl : pieces = [⟨1, 0⟩] := Except.ok.inj (hpieces.symm.trans hone)
  obtain ⟨hwhole, -, hchain⟩ := (hwork _ hpieces).2.2 segments stretch hcollects hstretch
  rw [Run.with_finish_engine] at hstretch
  exact ⟨hfive, fun others hothers => (hfewest _ hfive).2 others others (.refl _) hothers, hone,
    rfl, segments, stretch, hcollects, hstretch, hwhole, hchain⟩

/-- Settings whose longest segments have `2 ^ 52` squarings. -/
def vast : Settings := { batchSize := 100, window := 2, levels := 12, baseBits := 30 }

/-- **For as many squarings as the last word says there is no plan**, although
the settings are valid, the slots are counted in a word, and the shortest
segments alone would tile what is asked for. -/
theorem no_plan_for_last_word :
    vast.validate .stops = .ok () ∧ vast.validate .wraps = .ok () ∧
      (Rolling.ofSettings vast).Fits ∧
      plan (.ofSettings vast) (roundDown 18446744073709551615 (2 ^ 30)) = .error .overflow ∧
      ∃ pieces, Spans (.ofSettings vast) 0 pieces (roundDown 18446744073709551615 (2 ^ 30)) := by
  have hlong : wordCount ≤
      roundDown 18446744073709551615 (2 ^ 30) + longest (.ofSettings vast) := by decide
  have htiled : ∃ pieces,
      Spans (.ofSettings vast) 0 pieces (roundDown 18446744073709551615 (2 ^ 30)) :=
    exists_spans (by decide) (dvd_roundDown _ _)
  exact ⟨rfl, rfl, by decide, (plan_eq_overflow_iff (by decide)).2 hlong, htiled⟩

end Segmented

end VerifiableDelay
