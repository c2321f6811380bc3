import VerifiableDelay.Proofs.Recorder.Rolling
/-!
# The ends of shortest segments are kept for good

A recorder that has got so far has ends of the iterations behind it only
(`RollingRecorder.Past`), whatever forms it is handed. What comes after them
goes elsewhere, so **an end that is found once is found the same ever after**
(`RollingRecorder.end?_of_reaches`), also in a run whose fast path is not
honest.
-/

namespace VerifiableDelay

namespace RollingRecorder

variable {o : Overflow}
variable {layout : Rolling} {r recorder : RollingRecorder} {s : Settings} {d : Discriminant}
variable {x f : Form} {accelerator : Accelerator} {bound : Option Nat}
variable {run : Run RollingRecorder} {e e' : Engine RollingRecorder} {k m : Nat}

/-- **The ends that are kept of `m` forms** are at iterations before `m`. -/
structure Past (layout : Rolling) (r : RollingRecorder) (m : Nat) : Prop where
  layout_eq : r.layout = layout
  lt : ∀ k f, r.end? k = some f → k * layout.segmentLength 0 < m

/-- What a delivery does to the ends. -/
theorem end?_deliver (r : RollingRecorder) (f : Form) (i k : Nat) :
    (r.deliver f i).end? k =
      if i = k * r.layout.segmentLength 0 ∧ k < r.ends.capacity then some f else r.end? k :=
  (keepEnd_spec { r with
    archive := (List.range r.layout.levels).foldl (keep f i r.layout) r.archive } f i).2.2.2 k

theorem layout_deliver (r : RollingRecorder) (f : Form) (i : Nat) :
    (r.deliver f i).layout = r.layout :=
  (keepEnd_spec { r with
    archive := (List.range r.layout.levels).foldl (keep f i r.layout) r.archive } f i).1

/-- **A delivery keeps this**, whatever is delivered. -/
theorem Past.deliver (h : Past layout r m) (f : Form) : Past layout (r.deliver f m) (m + 1) := by
  obtain ⟨rfl, hlt⟩ := h
  refine ⟨r.layout_deliver f m, fun k g hg => ?_⟩
  rw [end?_deliver] at hg
  split at hg
  · -- the end that is kept now is at `m` itself
    rename_i hhere
    exact Nat.lt_succ_of_le (Nat.le_of_eq hhere.1.symm)
  · exact Nat.lt_succ_of_lt (hlt k g hg)

/-- **What is delivered next** leaves the ends as they are. -/
theorem Past.end?_deliver (h : Past layout r m) (hf : r.end? k = some f) (g : Form) :
    (r.deliver g m).end? k = some f := by
  obtain ⟨rfl, hlt⟩ := h
  have hbehind := hlt k f hf
  rw [RollingRecorder.end?_deliver, if_neg (by omega), hf]

theorem keeps_past (layout : Rolling) (history : Nat → Form) :
    listener.Keeps history (fun _ _ => False) fun r n => Past layout r (n + 1) :=
  keeps_of_deliver fun _ _ h => h.deliver _

theorem past_start (h : start o s x = .ok recorder) : Past (.ofSettings s) recorder 1 := by
  obtain ⟨-, -, rfl⟩ := start_eq_ok_iff.1 h
  have hempty : Past (.ofSettings s) (empty s) 0 := ⟨rfl, fun k f hf => by simp [empty, end?] at hf⟩
  exact hempty.deliver x

/-- The ends at any moment of a run are behind it. -/
theorem past (hrecorder : start o s x = .ok recorder)
    (h : Run.start o s d x listener recorder accelerator bound = .ok run)
    (he : run.loop.Reaches run.engine e) : Past (.ofSettings s) e.listening (e.done + 1) :=
  Run.keeps_of_forall h (keeps_past (.ofSettings s)) (past_start hrecorder) he

/-- A step leaves them as they are. -/
theorem Past.end?_of_step {l : Loop RollingRecorder} (h : Past layout e.listening (e.done + 1))
    (hl : l.listener = listener) (hs : l.Step e e') (hf : e.listening.end? k = some f) :
    e'.listening.end? k = some f := by
  have hcall := hs.listening
  rw [hl] at hcall
  rcases hcall with ⟨-, hl' | hl' | ⟨step, -, -, hl'⟩⟩ | ⟨-, hl'⟩ <;> rw [hl']
  · exact hf
  · exact hf
  · exact hf
  · exact h.end?_deliver hf _

/-- **An end that is found once is found ever after.** -/
theorem end?_of_reaches (hrecorder : start o s x = .ok recorder)
    (h : Run.start o s d x listener recorder accelerator bound = .ok run)
    (he : run.loop.Reaches run.engine e) (he' : run.loop.Reaches e e')
    (hf : e.listening.end? k = some f) : e'.listening.end? k = some f := by
  have hl : run.loop.listener = listener := by
    obtain ⟨-, rfl⟩ := Run.start_eq_ok_iff.1 h
    rfl
  induction he' with
  | start => exact hf
  | step hr hs ih =>
    exact (past hrecorder h (he.trans hr)).end?_of_step hl (Loop.step_of_eq_some hs) ih
  | stop _ ih => exact ih

end RollingRecorder

end VerifiableDelay
