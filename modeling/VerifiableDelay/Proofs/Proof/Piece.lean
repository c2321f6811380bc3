import VerifiableDelay.Proof.Segmented
import VerifiableDelay.Proofs.Proof.Segment
import VerifiableDelay.Proofs.Recorder.Ends
/-!
# What is proven of a run's segments is right

A prover that finds the checkpoint of a segment in its slot, and after that
the progress below the segment's limit, has found the right one, for **the
slot cannot have been used again**; from the limit on it finds none
(`Segmented.read_eq`). It takes that the slots of the layout are counted in a
word, as they are in every run of a build that checks its sums
(`Segmented.fits_of_start`). So whatever is proven of a segment while the run goes
on is right about it (`Segmented.of_segmentAt`). And until the limit is
reached it is proven, if there is a challenge (`Segmented.exists_segmentAt`).
-/

namespace VerifiableDelay

open Form

variable {o : Overflow} {s : Settings} {d : Discriminant} {x f : Form} {accelerator : Accelerator}
variable {bound : Option Nat} {r : Run RollingRecorder} {e e₁ e₂ : Engine RollingRecorder}
variable {c : FormClass d}

/-- A segment of any level ends where shortest ones do. -/
theorem Rolling.segmentLength_zero_dvd (r : Rolling) (level : Nat) :
    r.segmentLength 0 ∣ r.segmentLength level := by
  induction level with
  | zero => exact dvd_rfl
  | succ level ih =>
    rw [segmentLength_succ]
    exact ih.mul_left 4

namespace Segmented

variable {p : Piece} {k : Look RollingRecorder} {i n : Nat} {segment : Segment}

/-! ## What a prover finds -/

theorem start_eq_ok_iff :
    start o s d x accelerator bound = .ok r ↔
      ∃ recorder, RollingRecorder.start o s x = .ok recorder ∧
        Run.start o s d x RollingRecorder.listener recorder accelerator bound = .ok r := by
  simp only [start, bind_eq_ok_iff]

theorem valid_of_start (h : start o s d x accelerator bound = .ok r) : s.Valid o := by
  obtain ⟨recorder, -, hrun⟩ := start_eq_ok_iff.1 h
  exact (Run.start_eq_ok_iff.1 hrun).1

theorem discriminant_eq (h : start o s d x accelerator bound = .ok r) : r.discriminant = d := by
  obtain ⟨recorder, -, hrun⟩ := start_eq_ok_iff.1 h
  obtain ⟨-, rfl⟩ := Run.start_eq_ok_iff.1 hrun
  rfl

/-- The layout is that of the settings at every moment of a run. -/
theorem layout_eq (h : start o s d x accelerator bound = .ok r)
    (he : r.loop.Reaches r.engine e) : e.listening.layout = .ofSettings s := by
  obtain ⟨recorder, hrecorder, hrun⟩ := start_eq_ok_iff.1 h
  exact (RollingRecorder.past hrecorder hrun he).layout_eq

/-- **The slots of a run are counted in a word**: in a build that checks its sums
there is no run otherwise. -/
theorem fits_of_start (h : start o s d x accelerator bound = .ok r)
    (hwords : o = .wraps → (Rolling.ofSettings s).Fits) : (Rolling.ofSettings s).Fits := by
  obtain ⟨recorder, hrecorder, -⟩ := start_eq_ok_iff.1 h
  cases o with
  | stops => exact (RollingRecorder.start_eq_ok_iff.1 hrecorder).2.1 rfl
  | wraps => exact hwords rfl

/-- The limit where the end of the window is a word. -/
theorem limit_of_lt {layout : Rolling} {batchSize : Nat}
    (h : (p.index + layout.window) * layout.segmentLength p.level < wordCount) :
    limit o layout batchSize p =
      .ok ((p.index + layout.window) * layout.segmentLength p.level - batchSize) := by
  rw [limit, Overflow.word_of_lt h]
  rfl

/-- **No limit is past the end of the window** less a batch. -/
theorem le_of_limit {layout : Rolling} {batchSize : Nat}
    (h : limit o layout batchSize p = .ok n) :
    n ≤ (p.index + layout.window) * layout.segmentLength p.level - batchSize := by
  simp only [limit, bind_eq_ok_iff, pure_eq_ok_iff] at h
  obtain ⟨final, hfinal, rfl⟩ := h
  exact Nat.sub_le_sub_right (Overflow.le_of_word hfinal) batchSize

/-- What it takes that a segment is proven. -/
theorem segmentAt_eq_ok_iff {batchSize : Nat} : segmentAt o d batchSize k p = .ok segment ↔
    let length := k.opened.listening.layout.segmentLength p.level
    let start := p.index * length
    ∃ x, endAt k.opened.listening start = .ok x ∧
      ∃ y, endAt k.ended.listening (start + length) = .ok y ∧
        ∃ n, limit o k.opened.listening.layout batchSize p = .ok n ∧
          ¬ n ≤ k.checked.progress.count ∧
          ∃ proof, Power.prove d x y (checkpoints n k p) length (Parameters.ofLevel p.level)
            false = .ok proof ∧ { start, length, x, y, proof } = segment := by
  simp only [segmentAt, bind_eq_ok_iff, ite_error_eq_ok_iff, pure_eq_ok_iff]

/-- **The reasons for which a segment is not proven**: an end is missing, the
end of its window is no word, its slots may have been used again, there is no
challenge, or a checkpoint is not found. -/
theorem error_cases_of_segmentAt {batchSize : Nat} {error : DelayError}
    (h : segmentAt o d batchSize k p = .error error) :
    (∃ n, error = .missing n) ∨ error = .overflow ∨
      ∃ n, limit o k.opened.listening.layout batchSize p = .ok n ∧
        ((∃ m, error = .lapped m) ∧ n ≤ k.checked.progress.count ∨ error = .form .noPrime ∨
          ∃ i < (Parameters.ofLevel p.level).rows
              (k.opened.listening.layout.segmentLength p.level),
            checkpoints n k p i = .error error) := by
  have hend : ∀ {recorder : RollingRecorder} {iteration : Nat},
      endAt recorder iteration = .error error → ∃ n, error = .missing n := by
    intro recorder iteration hmissing
    unfold endAt at hmissing
    split at hmissing <;> cases hmissing
    exact ⟨iteration, rfl⟩
  rcases bind_eq_error_iff.1 h with hfirst | ⟨first, -, h⟩
  · exact .inl (hend hfirst)
  rcases bind_eq_error_iff.1 h with hlast | ⟨last, -, h⟩
  · exact .inl (hend hlast)
  rcases bind_eq_error_iff.1 h with hnone | ⟨n, hlimit, h⟩
  · rcases bind_eq_error_iff.1 hnone with hword | ⟨_, -, hnone⟩
    · exact .inr (.inl (Overflow.word_eq_error hword))
    · cases hnone
  refine .inr (.inr ⟨n, hlimit, ?_⟩)
  split at h
  · rename_i hlapped
    cases h
    exact .inl ⟨⟨_, rfl⟩, hlapped⟩
  · rcases bind_eq_error_iff.1 h with hproof | ⟨proof, -, h⟩
    · obtain ⟨-, ⟨hcause, -⟩ | ⟨-, hstopped⟩ | hread⟩ :=
        Power.error_cases_of_prove (Parameters.ofLevel_width_le p.level) hproof
      · exact .inr (.inl hcause)
      · cases hstopped
      · exact .inr (.inr hread)
    · cases h

theorem window_pos (h : start o s d x accelerator bound = .ok r) :
    0 < (Rolling.ofSettings s).window :=
  Nat.lt_of_lt_of_le (by decide) (valid_of_start h).two_le_window

/-- What is recorded at any moment of a run. -/
theorem recorded (h : start o s d x accelerator bound = .ok r)
    (hfits : (Rolling.ofSettings s).Fits) (hx : x.Definite d.value)
    (hh : r.loop.Honest r.engine) (he : r.loop.Reaches r.engine e) :
    RollingRecorder.Recorded (x.along d) (.ofSettings s) s.maxCheckpoints e.listening
      (e.done + 1) := by
  obtain ⟨recorder, hrecorder, hrun⟩ := start_eq_ok_iff.1 h
  exact Run.keeps hrun hx (RollingRecorder.keeps_recorded hfits (window_pos h)) hh
    (RollingRecorder.recorded_start hrecorder hfits rfl) he

theorem done_le_add (h : start o s d x accelerator bound = .ok r)
    (he : r.loop.Reaches r.engine e) : e.done ≤ e.progress.count + s.batchSize := by
  obtain ⟨recorder, -, hrun⟩ := start_eq_ok_iff.1 h
  exact Run.done_le_add hrun RollingRecorder.boundary_ne_alignTo he

/-- **An end of shortest segments is found** once it has been come to, if
there was room for it. -/
theorem endAt_eq_ok_iff (h : start o s d x accelerator bound = .ok r)
    (hfits : (Rolling.ofSettings s).Fits) (hx : x.Definite d.value)
    (hh : r.loop.Honest r.engine) (he : r.loop.Reaches r.engine e)
    (hi : (Rolling.ofSettings s).segmentLength 0 ∣ i) :
    endAt e.listening i = .ok f ↔ i ≤ e.done ∧
      i < s.maxCheckpoints * (Rolling.ofSettings s).segmentLength 0 ∧ f = x.along d i := by
  have hrecorded := recorded h hfits hx hh he
  have hpos := (Rolling.ofSettings s).segmentLength_pos 0
  obtain ⟨j, rfl⟩ := hi
  rw [endAt, hrecorded.layout_eq, RollingRecorder.end?, hrecorded.ends,
    Nat.mul_div_cancel_left j hpos, Nat.mul_comm j, Nat.mul_comm s.maxCheckpoints,
    Nat.mul_lt_mul_left hpos]
  by_cases hfound : (Rolling.ofSettings s).segmentLength 0 * j < e.done + 1 ∧ j < s.maxCheckpoints
  · simp only [hfound, and_self, if_true, Except.ok.injEq, Nat.le_of_lt_succ hfound.1, true_and,
      eq_comm]
  · rw [if_neg hfound]
    refine ⟨fun heq => (by cases heq), fun hfit => ?_⟩
    exact absurd ⟨Nat.lt_succ_of_le hfit.1, hfit.2.1⟩ hfound

/-- **A slot cannot have been used again** if the progress is still below the
segment's limit: the loop is not a window past the checkpoint. -/
theorem done_lt_of_count_lt (h : start o s d x accelerator bound = .ok r)
    (he₁ : r.loop.Reaches r.engine e₁) (he₂ : r.loop.Reaches e₁ e₂)
    (hlimit : limit o (.ofSettings s) s.batchSize p = .ok n) (hlt : e₂.progress.count < n) :
    e₁.done < p.index * (Rolling.ofSettings s).segmentLength p.level +
      (Rolling.ofSettings s).window * (Rolling.ofSettings s).segmentLength p.level := by
  have hahead := done_le_add h (he₁.trans he₂)
  have hlater := he₂.done_le
  have hle := le_of_limit hlimit
  rw [Nat.add_mul] at hle
  omega

/-- **What a prover finds** in the slot of an iteration that the run had come
to: the form of that iteration, if the progress is still below the segment's
limit after it is read, and nothing it is given from the limit on. -/
theorem read_eq (h : start o s d x accelerator bound = .ok r)
    (hfits : (Rolling.ofSettings s).Fits) (hx : x.Definite d.value)
    (hh : r.loop.Honest r.engine) (he₁ : r.loop.Reaches r.engine e₁)
    (he₂ : r.loop.Reaches e₁ e₂) (hlevel : p.level < s.levels)
    (hlimit : limit o (.ofSettings s) s.batchSize p = .ok n)
    (hi : i * (Parameters.ofLevel p.level).stride <
      (Rolling.ofSettings s).segmentLength p.level)
    (hdone : p.index * (Rolling.ofSettings s).segmentLength p.level +
      i * (Parameters.ofLevel p.level).stride ≤ e₁.done) :
    (view e₁.listening n p).read e₂.progress.count i =
      if e₂.progress.count < n then
        .ok (x.along d (p.index * (Rolling.ofSettings s).segmentLength p.level +
          i * (Parameters.ofLevel p.level).stride))
      else .error (.lapped (p.index * (Rolling.ofSettings s).segmentLength p.level +
        i * (Parameters.ofLevel p.level).stride)) := by
  have hrecorded := recorded h hfits hx hh he₁
  have hstored : (Rolling.ofSettings s).IsStored (p.index *
      (Rolling.ofSettings s).segmentLength p.level + i * (Parameters.ofLevel p.level).stride)
        p.level := Rolling.isStored_add_mul p.index hi
  have hslot := Rolling.slot?_eq_some_iff.2 ⟨hlevel, hstored, rfl⟩
  split
  · rename_i hlt
    have hroom := done_lt_of_count_lt h he₁ he₂ hlimit hlt
    have hget := hrecorded.slot _ _ _ hslot (by omega) (by omega)
    refine View.read_eq_ok_iff.2 ⟨?_, _, ?_, hget⟩
    · simp only [view, Option.any_some]
      exact decide_eq_false (Nat.not_le.2 hlt)
    · simp only [view, hrecorded.layout_eq]
      exact hslot
  · rename_i hle
    obtain ⟨f, hf⟩ := hrecorded.exists_get? (window_pos h) hslot (Nat.lt_succ_of_le hdone)
    have hview : view e₁.listening n p =
        { store := e₁.listening.archive.store, layout := .rolling (.ofSettings s)
          start := p.index * (Rolling.ofSettings s).segmentLength p.level
          stride := (Parameters.ofLevel p.level).stride, level := p.level
          limit := some n } := by
      rw [view, hrecorded.layout_eq]
    rw [hview]
    exact View.read_eq_lapped (decide_eq_true (Nat.not_lt.1 hle)) hslot hf

/-- Only the levels there are have slots to read. -/
theorem level_lt_of_read {progress : Nat} (h : start o s d x accelerator bound = .ok r)
    (he : r.loop.Reaches r.engine e)
    (hf : (view e.listening n p).read progress i = .ok f) : p.level < s.levels := by
  obtain ⟨-, slot, hslot, -⟩ := View.read_eq_ok_iff.1 hf
  simp only [view, layout_eq h he, Layout.slot?] at hslot
  exact (Rolling.slot?_eq_some_iff.1 hslot).1

/-- The piece that a segment is of: its place, and that it is right. -/
structure Of (s : Settings) (c : FormClass d) (p : Piece) (segment : Segment) : Prop where
  start_eq : segment.start = p.index * (Rolling.ofSettings s).segmentLength p.level
  length_eq : segment.length = (Rolling.ofSettings s).segmentLength p.level
  right : segment.Right d c

/-- **Checkpoints that are found** are those of the run, whenever each of
them is taken, if the run was past the segment before. -/
theorem truthful_checkpoints (h : start o s d x accelerator bound = .ok r)
    (hfits : (Rolling.ofSettings s).Fits) (hx : Represents d x c)
    (hh : r.loop.Honest r.engine) (hk : k.InOrder r.loop r.engine)
    (hlimit : limit o (.ofSettings s) s.batchSize p = .ok n)
    (hdone : p.index * (Rolling.ofSettings s).segmentLength p.level +
      (Rolling.ofSettings s).segmentLength p.level ≤ k.ended.done) :
    Power.Truthful d (checkpoints n k p)
      (c ^ 2 ^ (p.index * (Rolling.ofSettings s).segmentLength p.level))
      (Parameters.ofLevel p.level).stride ((Rolling.ofSettings s).segmentLength p.level) := by
  intro i f hi hf
  have htaken := (hk.opened.trans hk.ended).trans (hk.checked.trans (hk.taken i))
  have hlater := (hk.checked.trans (hk.taken i)).done_le
  have hlevel := level_lt_of_read h htaken hf
  rw [Nat.mul_comm] at hi
  rw [checkpoints,
    read_eq h hfits hx.definite hh htaken (hk.seen i) hlevel hlimit hi (by omega)] at hf
  split at hf
  · cases hf
    rw [← pow_mul, ← pow_add, Nat.mul_comm _ i]
    exact hx.along _
  · cases hf

/-- **What is proven of a segment while the run goes on is right.** -/
theorem of_segmentAt (h : start o s d x accelerator bound = .ok r)
    (hfits : (Rolling.ofSettings s).Fits) (hx : Represents d x c)
    (hh : r.loop.Honest r.engine) (hk : k.InOrder r.loop r.engine)
    (hsegment : segmentAt o d s.batchSize k p = .ok segment) : Of s c p segment := by
  simp only [segmentAt_eq_ok_iff, layout_eq h hk.opened] at hsegment
  obtain ⟨first, hfirst, last, hlast, n, hlimit, -, proof, hproof, rfl⟩ := hsegment
  have hdvd := (Rolling.ofSettings s).segmentLength_zero_dvd p.level
  obtain ⟨-, -, rfl⟩ :=
    (endAt_eq_ok_iff h hfits hx.definite hh hk.opened (hdvd.mul_left _)).1 hfirst
  obtain ⟨hdone, -, rfl⟩ := (endAt_eq_ok_iff h hfits hx.definite hh (hk.opened.trans hk.ended)
    (dvd_add (hdvd.mul_left _) hdvd)).1 hlast
  refine ⟨rfl, rfl, hx.along _, hx.along _, ?_⟩
  exact Power.represents_of_prove (Parameters.ofLevel_width_le p.level) (hx.along _)
    (truthful_checkpoints h hfits hx hh hk hlimit hdone) hproof

/-! ## When a segment is proven -/

/-- **A checkpoint is found** of a level's segment that the run is past, until
its slots can have been used again. -/
theorem exists_checkpoint (h : start o s d x accelerator bound = .ok r)
    (hfits : (Rolling.ofSettings s).Fits) (hx : x.Definite d.value)
    (hh : r.loop.Honest r.engine) (he : r.loop.Reaches r.engine e) (hlevel : p.level < s.levels)
    (hdone : (p.index + 1) * (Rolling.ofSettings s).segmentLength p.level ≤ e.done)
    (hlimit : limit o (.ofSettings s) s.batchSize p = .ok n) (hlt : e.progress.count < n)
    (hi : (Parameters.ofLevel p.level).stride * i < (Rolling.ofSettings s).segmentLength p.level) :
    ∃ f, checkpoints n (.at e) p i = .ok f := by
  rw [Nat.mul_comm] at hi
  rw [Nat.succ_mul] at hdone
  have hread := read_eq h hfits hx hh he .start hlevel hlimit hi (by omega)
  rw [if_pos hlt] at hread
  exact ⟨_, hread⟩

/-- **A segment that the run is past is proven**, until its slots can have
been used again, if there is a challenge. -/
theorem exists_segmentAt (h : start o s d x accelerator bound = .ok r)
    (hfits : (Rolling.ofSettings s).Fits) (hx : Represents d x c)
    (hh : r.loop.Honest r.engine) (he : r.loop.Reaches r.engine e) (hlevel : p.level < s.levels)
    (hdone : (p.index + 1) * (Rolling.ofSettings s).segmentLength p.level ≤ e.done)
    (hroom : e.done < s.maxCheckpoints * (Rolling.ofSettings s).segmentLength 0)
    (hlimit : limit o (.ofSettings s) s.batchSize p = .ok n) (hlt : e.progress.count < n)
    (hchallenge : Challenge.prime d
      (squareTimes d (p.index * (Rolling.ofSettings s).segmentLength p.level) x)
      (squareTimes d ((p.index + 1) * (Rolling.ofSettings s).segmentLength p.level) x) ≠
        .error .noPrime) :
    ∃ segment, segmentAt o d s.batchSize (.at e) p = .ok segment := by
  have hlayout := layout_eq h he
  have hdvd := (Rolling.ofSettings s).segmentLength_zero_dvd p.level
  rw [Nat.succ_mul] at hdone hchallenge
  have hfirst := (endAt_eq_ok_iff h hfits hx.definite hh he (hdvd.mul_left p.index)).2
    ⟨by omega, by omega, rfl⟩
  have hlast := (endAt_eq_ok_iff h hfits hx.definite hh he (dvd_add (hdvd.mul_left p.index) hdvd)).2
    ⟨by omega, by omega, rfl⟩
  rw [Challenge.prime_eq_of_represents (hx.squareTimes _) (hx.along _) (hx.squareTimes _)
    (hx.along _)] at hchallenge
  obtain ⟨proof, hproof⟩ := Power.exists_prove (Parameters.ofLevel_width_le p.level)
    (truthful_checkpoints h hfits hx hh (Look.inOrder_at he) hlimit hdone)
    (fun i hi =>
      exists_checkpoint h hfits hx.definite hh he hlevel (by rwa [Nat.succ_mul]) hlimit hlt hi)
    hchallenge
  simp only [segmentAt_eq_ok_iff, Look.at, hlayout]
  exact ⟨_, _, hfirst, _, hlast, n, hlimit, Nat.not_le.2 hlt, proof, hproof, rfl⟩

end Segmented

end VerifiableDelay
