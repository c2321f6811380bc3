import VerifiableDelay.Proofs.Proof.Overrun
import VerifiableDelay.Proofs.Run.Pace
/-!
# Segments proven as they are completed

That a segment is complete is published at the end of the batch in which it
is, so up to a batch too late, and its checkpoints are refused a batch
before the end of its window. Settings that are valid leave a batch less
than a window, which may be one segment more than the batch: **a segment is
never refused as it is completed exactly if two batches fit between its end
and that of its window** (`Segmented.never_lapped_iff`). Segments whose window
ends past the last word are left out: a build that checks its sums has no limit
for them, and one that does not has too low a one.
-/

namespace VerifiableDelay

open Form

namespace Segmented

variable {o : Overflow} {s : Settings} {d : Discriminant} {x : Form} {accelerator : Accelerator}
variable {bound : Option Nat} {r : Run RollingRecorder} {e : Engine RollingRecorder}
variable {p : Piece} {i n : Nat}

/-- **A segment is refused for its window** only from its limit on. -/
theorem limit_le_of_segmentAt {batchSize : Nat}
    (h : segmentAt o d batchSize (.at e) p = .error (.lapped i)) :
    ∃ n, limit o e.listening.layout batchSize p = .ok n ∧ n ≤ e.progress.count := by
  rcases error_cases_of_segmentAt h with
    ⟨j, hcause⟩ | hcause | ⟨n, hlimit, ⟨-, hle⟩ | hcause | ⟨j, -, hj⟩⟩
  · cases hcause
  · cases hcause
  · exact ⟨n, hlimit, hle⟩
  · cases hcause
  · rcases View.error_cases_of_read hj with ⟨-, hcause⟩ | hcause | ⟨-, hle⟩
    · cases hcause
    · cases hcause
    · exact ⟨n, hlimit, of_decide_eq_true hle⟩

/-! ## Where completion is published -/

/-- Where a segment ends. -/
def Piece.endsAt (s : Settings) (p : Piece) : Nat :=
  (p.index + 1) * (Rolling.ofSettings s).segmentLength p.level

/-- **The state `e` is the first to say that a segment is complete**, of a run
from `x` with the given fast path and bound: the step that leads to it
publishes a count that is past the end of the segment. -/
def CompletedAt (o : Overflow) (s : Settings) (d : Discriminant) (x : Form)
    (accelerator : Accelerator) (bound : Option Nat) (p : Piece) (e : Engine RollingRecorder) :
    Prop :=
  ∃ r before, start o s d x accelerator bound = .ok r ∧ r.loop.Reaches r.engine before ∧
    r.loop.step? before = some e ∧
    before.progress.count < p.endsAt s ∧ p.endsAt s ≤ e.progress.count

theorem exists_start (hs : s.Valid o) (hfits : (Rolling.ofSettings s).Fits) :
    ∃ r, start o s d x accelerator bound = .ok r :=
  ⟨_, start_eq_ok_iff.2 ⟨_, RollingRecorder.start_eq_ok_iff.2 ⟨hs, fun _ => hfits, rfl⟩,
    Run.start_eq_ok_iff.2 ⟨hs, rfl⟩⟩⟩

/-- Nothing was refused for want of slots, whatever was delivered. -/
theorem roomy (h : start o s d x accelerator bound = .ok r)
    (hfits : (Rolling.ofSettings s).Fits) (he : r.loop.Reaches r.engine e) :
    RollingRecorder.Roomy (.ofSettings s) s.maxCheckpoints e.listening (e.done + 1) := by
  obtain ⟨recorder, hrecorder, hrun⟩ := start_eq_ok_iff.1 h
  exact Run.keeps_of_forall hrun (RollingRecorder.keeps_roomy hfits (window_pos h))
    (RollingRecorder.roomy_start hrecorder hfits) he

/-- **It is published less than a batch late.** -/
theorem CompletedAt.count_lt (h : CompletedAt o s d x accelerator bound p e) :
    e.progress.count < p.endsAt s + s.batchSize := by
  obtain ⟨r, before, hstart, hreaches, hstep, hbefore, hafter⟩ := h
  have hahead := done_le_add hstart hreaches
  rcases (Loop.step_of_eq_some hstep).count_eq with hcount | hcount <;> omega

/-- **Where two batches fit before the end of its window, it is not refused.** -/
theorem CompletedAt.not_lapped (h : CompletedAt o s d x accelerator bound p e)
    (hlong : 2 * s.batchSize ≤ (s.window - 1) * (Rolling.ofSettings s).segmentLength p.level)
    (hword : (p.index + s.window) * (Rolling.ofSettings s).segmentLength p.level < wordCount) :
    ∃ n, limit o (.ofSettings s) s.batchSize p = .ok n ∧ e.progress.count < n ∧
      ∀ i, segmentAt o d s.batchSize (.at e) p ≠ .error (.lapped i) := by
  have hcount := h.count_lt
  obtain ⟨r, before, hstart, hreaches, hstep, -, -⟩ := h
  have hvalid := valid_of_start hstart
  have hbatch := hvalid.batchSize_pos
  have hsplit : (p.index + s.window) * (Rolling.ofSettings s).segmentLength p.level =
      p.endsAt s + (s.window - 1) * (Rolling.ofSettings s).segmentLength p.level := by
    rw [Piece.endsAt, ← Nat.add_mul]
    congr 1
    have := hvalid.two_le_window
    omega
  have hlimit : limit o (.ofSettings s) s.batchSize p = .ok _ := limit_of_lt hword
  have hbelow : e.progress.count < (p.index + (Rolling.ofSettings s).window) *
      (Rolling.ofSettings s).segmentLength p.level - s.batchSize := by
    show _ < (p.index + s.window) * _ - s.batchSize
    omega
  refine ⟨_, hlimit, hbelow, fun i hlapped => ?_⟩
  obtain ⟨n, hn, hle⟩ := limit_le_of_segmentAt hlapped
  rw [layout_eq hstart (hreaches.step hstep)] at hn
  obtain rfl := Except.ok.inj (hlimit.symm.trans hn)
  omega

/-! ## And where it is refused -/

/-- From its limit on it is refused, where its ends were kept. -/
theorem lapped_of_limit_le (h : start o s d x accelerator bound = .ok r)
    (hfits : (Rolling.ofSettings s).Fits) (hx : x.Definite d.value)
    (hh : r.loop.Honest r.engine) (he : r.loop.Reaches r.engine e) (hdone : p.endsAt s ≤ e.done)
    (hroom : p.endsAt s < s.maxCheckpoints * (Rolling.ofSettings s).segmentLength 0)
    (hlimit : limit o (.ofSettings s) s.batchSize p = .ok n) (hle : n ≤ e.progress.count) :
    segmentAt o d s.batchSize (.at e) p =
      .error (.lapped (p.index * (Rolling.ofSettings s).segmentLength p.level)) := by
  have hdvd := (Rolling.ofSettings s).segmentLength_zero_dvd p.level
  rw [Piece.endsAt, Nat.succ_mul] at hdone hroom
  have hfirst := (endAt_eq_ok_iff h hfits hx hh he (hdvd.mul_left p.index)).2
    ⟨by omega, by omega, rfl⟩
  have hlast := (endAt_eq_ok_iff h hfits hx hh he (dvd_add (hdvd.mul_left p.index) hdvd)).2
    ⟨hdone, hroom, rfl⟩
  simp only [segmentAt, Look.at, layout_eq h he]
  exact bind_eq_error_iff.2 (.inr ⟨_, hfirst, bind_eq_error_iff.2 (.inr ⟨_, hlast,
    bind_eq_error_iff.2 (.inr ⟨n, hlimit, if_pos hle⟩)⟩)⟩)

/-- A run without bound on a fast path with a pace is paced. -/
theorem paced {pace : Nat → Nat} (h : start o s d x (.pacing d pace) none = .ok r)
    (hpace : ∀ n, 0 < pace n) : r.loop.Paced pace ∧ r.engine.AtRest (fun _ => True) 0 := by
  obtain ⟨recorder, -, hrun⟩ := start_eq_ok_iff.1 h
  obtain ⟨hvalid, rfl⟩ := Run.start_eq_ok_iff.1 hrun
  exact ⟨⟨rfl, rfl, hvalid.batchSize_pos, hpace, fun _ => rfl⟩, rfl, rfl, rfl, rfl, trivial⟩

/-- What the loop is told at the end of a batch: to go on while there is room
for the ends of segments, and never to go on to a multiple. -/
theorem boundary_eq (h : start o s d x accelerator bound = .ok r)
    (hfits : (Rolling.ofSettings s).Fits) (he : r.loop.Reaches r.engine e) :
    ∃ answer, (r.loop.listener.boundary e.listening e.done e.progress.count).2 = answer ∧
      (∀ step, answer ≠ .alignTo step) ∧
      (e.done < s.maxCheckpoints * (Rolling.ofSettings s).segmentLength 0 → answer = .proceed) := by
  have hroomy := roomy h hfits he
  obtain ⟨recorder, -, hrun⟩ := start_eq_ok_iff.1 h
  obtain ⟨-, rfl⟩ := Run.start_eq_ok_iff.1 hrun
  refine ⟨e.listening.boundary, rfl, ?_, fun hroom => ?_⟩
  · exact fun step => RollingRecorder.boundary_ne_alignTo e.listening e.done e.progress.count step
  · rw [RollingRecorder.boundary, hroomy.full_eq hroom]
    rfl

/-- **Anything less than a batch late**: there is a run that says it with `n`
squarings, if there is room for the end of the segment. -/
theorem exists_completedAt (hs : s.Valid o) (hfits : (Rolling.ofSettings s).Fits)
    (hx : x.Definite d.value) (hle : p.endsAt s ≤ n)
    (hlt : n < p.endsAt s + s.batchSize)
    (hroom : p.endsAt s < s.maxCheckpoints * (Rolling.ofSettings s).segmentLength 0) :
    ∃ pace e, CompletedAt o s d x (.pacing d pace) none p e ∧ e.progress.count = n ∧
      ∀ m, limit o (.ofSettings s) s.batchSize p = .ok m → m ≤ n →
        segmentAt o d s.batchSize (.at e) p =
          .error (.lapped (p.index * (Rolling.ofSettings s).segmentLength p.level)) := by
  have hend : 0 < p.endsAt s :=
    Nat.mul_pos (Nat.succ_pos _) ((Rolling.ofSettings s).segmentLength_pos _)
  -- one by one until the end is next, and from there to `n` in one batch
  obtain ⟨pace, hpace⟩ : ∃ pace : Nat → Nat,
      pace = fun k => if k + 1 = p.endsAt s then n + 1 - p.endsAt s else 1 := ⟨_, rfl⟩
  have hpos : ∀ k, 0 < pace k := by
    intro k
    rw [hpace]
    simp only
    split <;> omega
  have hones : ∀ k, 0 ≤ k → k < p.endsAt s - 1 → pace k = 1 := by
    intro k _ hk
    rw [hpace]
    exact if_neg (by omega)
  have hlast : pace (p.endsAt s - 1) = n + 1 - p.endsAt s := by
    rw [hpace]
    exact if_pos (by omega)
  obtain ⟨r, hstart⟩ : ∃ r, start o s d x (.pacing d pace) none = .ok r :=
    exists_start hs hfits
  obtain ⟨hpaced, hrest⟩ := paced hstart hpos
  obtain ⟨recorder, -, hrun⟩ := start_eq_ok_iff.1 hstart
  have hsound := Run.sound hrun hx .start
  have hleaves := r.loop.listener.leaves_true
  obtain ⟨e₁, hbatch, hboundary⟩ := hpaced.exists_boundary_at hleaves hsound hrest
    (Nat.zero_le (p.endsAt s - 1)) hones (fun e' he' k _ hk hboundary => by
      obtain ⟨answer, hanswer, -, hproceed⟩ := boundary_eq hstart hfits he'
      rw [hanswer, hproceed (by rw [hboundary.done_eq]; omega)])
  obtain ⟨answer, hanswer, hstays, -⟩ := boundary_eq hstart hfits hbatch
  obtain ⟨e₂, e₃, hconsulted, hstep, hbefore, hafter, hdone, -⟩ :=
    hpaced.exists_published hleaves hboundary hanswer hstays
  have hreaches := hbatch.trans hconsulted
  have hbatchSize : r.loop.batchSize = s.batchSize := by
    obtain ⟨-, rfl⟩ := Run.start_eq_ok_iff.1 hrun
    rfl
  have hn : p.endsAt s - 1 + min (pace (p.endsAt s - 1)) r.loop.batchSize = n := by
    rw [hlast, hbatchSize]
    omega
  rw [hn] at hafter hdone
  refine ⟨pace, e₃, ⟨r, e₂, hstart, hreaches, hstep, by omega, by omega⟩, hafter,
    fun m hlimit hm => ?_⟩
  exact lapped_of_limit_le hstart hfits hx hpaced.honest (hreaches.step hstep) (by omega) hroom
    hlimit (by omega)

/-- **The counts that can say so** are those from the end of the segment on and
less than a batch past it. -/
theorem exists_completedAt_iff (hs : s.Valid o) (hfits : (Rolling.ofSettings s).Fits)
    (hx : x.Definite d.value)
    (hroom : p.endsAt s < s.maxCheckpoints * (Rolling.ofSettings s).segmentLength 0) :
    (∃ accelerator bound e, CompletedAt o s d x accelerator bound p e ∧ e.progress.count = n) ↔
      p.endsAt s ≤ n ∧ n < p.endsAt s + s.batchSize := by
  constructor
  · rintro ⟨accelerator, bound, e, he, rfl⟩
    obtain ⟨r, before, -, -, -, -, hafter⟩ := id he
    exact ⟨hafter, he.count_lt⟩
  · rintro ⟨hle, hlt⟩
    obtain ⟨pace, e, he, hcount, -⟩ := exists_completedAt hs hfits hx hle hlt hroom
    exact ⟨_, _, e, he, hcount⟩

/-- **No segment is refused as it is completed**, of those whose window ends at a
word: whatever the fast path answers and whenever the run ends or is stopped,
the first count that is published past the end of a segment is below its
limit. -/
def NeverLapped (o : Overflow) (s : Settings) (d : Discriminant) (x : Form) : Prop :=
  ∀ p accelerator bound e, p.level < s.levels →
    (p.index + s.window) * (Rolling.ofSettings s).segmentLength p.level < wordCount →
    CompletedAt o s d x accelerator bound p e →
      ∃ n, limit o (.ofSettings s) s.batchSize p = .ok n ∧ e.progress.count < n ∧
        ∀ i, segmentAt o d s.batchSize (.at e) p ≠ .error (.lapped i)

/-- **A segment is never refused as it is completed exactly if two batches fit
between its end and that of its window.** For any valid settings and any
definite form: of no segment of any level whose window ends at a word is this
so, if twice the batch is no longer than all but one of the shortest segments
of a window. Where there is room for the end of a segment, the slots of the
layout are counted in a word, and the first window ends at one, it is so only
then. -/
theorem never_lapped_iff (hs : s.Valid o) (hx : x.Definite d.value) :
    (2 * s.batchSize ≤ (s.window - 1) * s.baseLength → NeverLapped o s d x) ∧
      (1 < s.maxCheckpoints → (Rolling.ofSettings s).Fits →
        s.window * s.baseLength < wordCount →
        (NeverLapped o s d x ↔ 2 * s.batchSize ≤ (s.window - 1) * s.baseLength)) := by
  have hbase : (Rolling.ofSettings s).segmentLength 0 = s.baseLength := rfl
  have hnever : 2 * s.batchSize ≤ (s.window - 1) * s.baseLength → NeverLapped o s d x := by
    intro hlong p accelerator bound e _ hword he
    refine he.not_lapped (hlong.trans (Nat.mul_le_mul_left _ ?_)) hword
    exact Nat.le_of_dvd (Rolling.segmentLength_pos _ _)
      ((Rolling.ofSettings s).segmentLength_zero_dvd p.level)
  refine ⟨hnever, fun hroom hfits hword => ⟨fun hnever => ?_, hnever⟩⟩
  by_contra hlong
  -- the first of the shortest segments, in a batch that ends as late as it can
  have hbatch := hs.batchSize_pos
  have hwindow := hs.two_le_window
  have hend : Piece.endsAt s ⟨0, 0⟩ = s.baseLength := Nat.one_mul _
  have hfirst : (0 + s.window) * s.baseLength < wordCount := by rwa [Nat.zero_add]
  obtain ⟨pace, e, he, hcount, hlapped⟩ := exists_completedAt (p := ⟨0, 0⟩)
    (n := s.baseLength + s.batchSize - 1) hs hfits hx (by omega) (by omega) (by
      rw [hend, hbase]
      exact lt_mul_of_one_lt_left ((Rolling.ofSettings s).segmentLength_pos 0) hroom)
  obtain ⟨n, hlimit, hlt, hproven⟩ := hnever _ _ _ e hs.levels_range.1 hfirst he
  refine hproven _ (hlapped n hlimit ?_)
  have hle : n ≤ (0 + s.window) * s.baseLength - s.batchSize := le_of_limit hlimit
  have hsplit : s.window * s.baseLength = (s.window - 1) * s.baseLength + s.baseLength := by
    rw [← Nat.succ_mul]
    congr 1
    omega
  rw [Nat.zero_add] at hle
  omega

/-- Settings with a window of two segments of 64 squarings, and a batch that is
shorter than that. -/
def hasty1823 : Settings := { batchSize := 100, window := 2, levels := 1, baseBits := 6 }

/-- With batches of 50 squarings and a window of four segments of 64 none is
refused, and with batches of 100 and a window of two some is. -/
theorem never_lapped_iff_1823 :
    NeverLapped .wraps settings1823 discriminant1823 form1823 ∧
      ¬ NeverLapped .stops hasty1823 discriminant1823 form1823 :=
  ⟨(never_lapped_iff (o := .wraps) (s := settings1823)
      ((Settings.fault?_eq_none_iff _ _).1 rfl) definite1823).1 (by decide),
    fun h => absurd (((never_lapped_iff (o := .stops) (s := hasty1823)
      ((Settings.fault?_eq_none_iff _ _).1 rfl) definite1823).2 (by decide) (by decide)
      (by decide)).1 h) (by decide)⟩

/-- A run of 64 squarings without a fast path. -/
def hastyRun1823 : Run RollingRecorder where
  settings := hasty1823
  x := form1823.reduced
  loop := { discriminant := discriminant1823, listener := RollingRecorder.listener
            batchSize := 100, bound := some 64 }
  engine := Loop.start form1823.reduced ((RollingRecorder.empty hasty1823).deliver form1823 0)
    false

/-- Such settings are valid, and the first segment is refused at the moment
that the run says it is complete. -/
theorem lapped_as_completed_1823 :
    hasty1823.validate .stops = .ok () ∧
      ∃ e, CompletedAt .stops hasty1823 discriminant1823 form1823 .absent (some 64) ⟨0, 0⟩ e ∧
        e.progress.count = 64 ∧
        limit .stops (.ofSettings hasty1823) 100 ⟨0, 0⟩ = .ok 28 ∧
        segmentAt .stops discriminant1823 100 (.at e) ⟨0, 0⟩ = .error (.lapped 0) := by
  have hstart : start .stops hasty1823 discriminant1823 form1823 .absent (some 64) =
      .ok hastyRun1823 := rfl
  have hh : hastyRun1823.loop.unaided.Honest hastyRun1823.engine := Loop.honest_unaided
  -- four steps for each squaring, but for the last step
  have hbefore := hastyRun1823.loop.reaches_advance (fun _ => false) 255 hastyRun1823.engine
  have hcounts : (hastyRun1823.loop.advance (fun _ => false) 255
      hastyRun1823.engine).progress.count = 63 ∧
      (hastyRun1823.loop.step? (hastyRun1823.loop.advance (fun _ => false) 255
        hastyRun1823.engine)).map (fun e => (e.progress.count, e.done)) = some (64, 64) := by
    decide +kernel
  obtain ⟨hcount, hafter⟩ := hcounts
  obtain ⟨e, hstep, he⟩ := Option.map_eq_some_iff.1 hafter
  obtain ⟨hpublished, hdone⟩ := Prod.mk.inj he
  have hend : Piece.endsAt hasty1823 ⟨0, 0⟩ = 64 := rfl
  have hlimit : limit .stops (.ofSettings hasty1823) hasty1823.batchSize ⟨0, 0⟩ = .ok 28 := rfl
  refine ⟨rfl, e, ⟨_, _, hstart, hbefore, hstep, by omega, by omega⟩, hpublished, hlimit, ?_⟩
  exact lapped_of_limit_le (p := ⟨0, 0⟩) hstart (by decide) definite1823 hh
    (hbefore.step hstep) (by omega) (by decide) hlimit (by rw [hpublished]; decide)

end Segmented

end VerifiableDelay
