import VerifiableDelay.Proofs.Recorder.Widening
/-!
# What the widening recorder retains

The recorder says that it is full exactly if a form on the stride had no
slot (`WideningRecorder.NotesFull`). What is in a slot stays there, the slots
of the iterations that were delivered stay theirs when the stride widens,
and a full recorder stays full: from one moment of a run to a later one the
recorder only grows (`WideningRecorder.Extends`). So while it is not full
**every form on the stride that was delivered is found, and once it is full
the run is halted with all that was kept before** (`WideningRecorder.run_retains`).
-/

namespace VerifiableDelay

open Form

namespace WideningRecorder

variable {o : Overflow}
variable {history : Nat → Form} {s : Settings} {r r' r'' : WideningRecorder} {m m' n : Nat}
variable {f : Form}

/-! ## When it is full -/

/-- **The recorder is full exactly if** one of the first `m` forms is on the
stride and has no slot. -/
def NotesFull (r : WideningRecorder) (m : Nat) : Prop :=
  r.archive.full = false ↔ ∀ i < m, r.layout.OnStride i → ∃ slot, r.layout.slot? i = some slot

theorem NotesFull.deliver (h : r.NotesFull m) (hr : Recorded history s r m) (f : Form) :
    (r.deliver f m).NotesFull (m + 1) := by
  have hstride := Widening.onStride_iff_mod_strideAt hr.layout_aligned (i := m)
  unfold NotesFull at h ⊢
  unfold WideningRecorder.deliver
  rw [Nat.forall_lt_succ_right]
  split
  · rename_i hmod
    have hfull : (r.keep f m).archive.full = (r.archive.full || (r.layout.slot? m).isNone) :=
      Archive.full_keep f fun _ => hr.slot_lt_capacity
    rw [hfull, Bool.or_eq_false_iff, Option.isNone_eq_false_iff, Option.isSome_iff_exists, h]
    exact and_congr_right fun _ => ⟨fun hslot _ => hslot, fun hall => hall (hstride.2 hmod)⟩
  · -- off the stride there is nothing to find room for
    rename_i hmod
    rw [h]
    exact (and_iff_left fun hon => absurd (hstride.1 hon) hmod).symm

theorem NotesFull.aligned (h : r.NotesFull (n + 1)) (hn : n % 100 = 0) :
    (r.aligned n).NotesFull (n + 1) := by
  unfold NotesFull at h ⊢
  unfold WideningRecorder.aligned
  split
  · rename_i hnone
    rw [Option.isNone_iff_eq_none] at hnone
    rw [h]
    refine forall₂_congr fun i hi => ?_
    have hle := Nat.le_of_lt_succ hi
    rw [Widening.onStride_widen hnone hn hle, Widening.slot?_widen hnone hn hle]
  · exact h

/-- The recorder keeps this with what is recorded. -/
theorem keeps_notesFull (history : Nat → Form) (s : Settings) :
    listener.Keeps history (fun step n => step = 100 ∧ s.switchIterations ≤ n)
      fun r n => Recorded history s r (n + 1) ∧ r.NotesFull (n + 1) where
  deliver _ _ h := ⟨h.1.deliver, h.2.deliver h.1 _⟩
  boundary _ _ _ h := h
  asks r n published step h := (keeps_recorded history s).asks r n published step h.1
  asks_succ := (keeps_recorded history s).asks_succ
  aligned r n step h hasks hmultiple :=
    ⟨(keeps_recorded history s).aligned r n step h.1 hasks hmultiple,
      h.2.aligned (hasks.1 ▸ hmultiple)⟩

theorem notesFull_start {x : Form} (h : start o s x = .ok r) : r.NotesFull 1 := by
  have hempty : (empty s).NotesFull 0 := by simp [NotesFull, empty]
  rw [eq_deliver_of_start h]
  exact hempty.deliver (recorded_empty (fun _ => x) s) x

/-- **What is found** where nothing was turned away: every form on the
stride. -/
theorem NotesFull.formAt? (h : r.NotesFull m) (hr : Recorded history s r m)
    (hfull : r.archive.full = false) {i : Nat} (hi : i < m) (hon : r.layout.OnStride i) :
    r.formAt? i = .ok (some (history i)) := by
  obtain ⟨slot, hslot⟩ := h.1 hfull i hi hon
  have hget := hr.slot i slot hslot
  rw [if_pos hi] at hget
  have hplace : (Layout.widening r.layout).slot i 0 = .ok slot := Layout.slot_eq_ok_iff.2 hslot
  simp only [WideningRecorder.formAt?, hplace, bind, Except.bind, hget]
  rfl

/-! ## What only grows -/

/-- **What holds on to all that was recorded** of the first `m` forms. -/
structure Extends (m : Nat) (r r' : WideningRecorder) : Prop where
  slot?_eq : ∀ i < m, r'.layout.slot? i = r.layout.slot? i
  stored : ∀ slot f, r.archive.store.get? slot = some f → r'.archive.store.get? slot = some f
  full : r.archive.full = true → r'.archive.full = true

theorem Extends.refl (m : Nat) (r : WideningRecorder) : Extends m r r :=
  ⟨fun _ _ => rfl, fun _ _ h => h, fun h => h⟩

theorem Extends.trans (h : Extends m r r') (h' : Extends m' r' r'') (hle : m ≤ m') :
    Extends m r r'' where
  slot?_eq i hi := (h'.slot?_eq i (Nat.lt_of_lt_of_le hi hle)).trans (h.slot?_eq i hi)
  stored slot f hf := h'.stored slot f (h.stored slot f hf)
  full hfull := h'.full (h.full hfull)

/-- A delivery goes into an empty slot, whatever form it is of. -/
theorem Recorded.extends_deliver (h : Recorded history s r m) (f : Form) :
    Extends m r (r.deliver f m) := by
  unfold WideningRecorder.deliver
  split
  · refine ⟨fun _ _ => rfl, fun slot g hg => ?_, fun hfull => ?_⟩
    · have hne : r.layout.slot? m ≠ some slot := by
        intro hslot
        have hempty := h.slot m slot hslot
        rw [if_neg (Nat.lt_irrefl m), hg] at hempty
        cases hempty
      refine (Archive.get?_keep f (fun _ => h.slot_lt_capacity) slot).trans ?_
      rw [if_neg hne, hg]
    · refine (Archive.full_keep f fun _ => h.slot_lt_capacity).trans ?_
      rw [hfull, Bool.true_or]
  · exact .refl m r

/-- Widening the stride moves nothing. -/
theorem extends_aligned (r : WideningRecorder) (hn : n % 100 = 0) :
    Extends (n + 1) r (r.aligned n) := by
  unfold WideningRecorder.aligned
  split
  · rename_i hnone
    rw [Option.isNone_iff_eq_none] at hnone
    exact ⟨fun i hi => Widening.slot?_widen hnone hn (Nat.le_of_lt_succ hi), fun _ _ h => h,
      fun h => h⟩
  · exact .refl (n + 1) r

variable {l : Loop WideningRecorder} {e e' : Engine WideningRecorder}

/-- **A step takes nothing away.** -/
theorem extends_of_step (hl : l.listener = listener)
    (h : Loop.Heard (fun step n => step = 100 ∧ s.switchIterations ≤ n)
      (fun r n => Recorded history s r (n + 1) ∧ r.NotesFull (n + 1)) e)
    (hs : l.Step e e') : Extends (e.done + 1) e.listening e'.listening := by
  have hcall := hs.listening
  rw [hl] at hcall
  rcases hcall with ⟨-, hl' | hl' | ⟨step, hphase, hmultiple, hl'⟩⟩ | ⟨-, hl'⟩ <;> rw [hl']
  · exact .refl _ _
  · exact .refl _ _
  · rw [(h.asks step hphase).1] at hmultiple
    exact extends_aligned e.listening hmultiple
  · exact h.keeps.1.extends_deliver _

/-! ## Runs -/

variable {d : Discriminant} {x : Form} {recorder : WideningRecorder} {accelerator : Accelerator}
variable {bound : Option Nat} {run : Run WideningRecorder}

/-- What is recorded at any moment of a run, and what is asked for. -/
theorem heard (hrecorder : start o s x = .ok recorder)
    (h : Run.start o s d x listener recorder accelerator bound = .ok run) (hx : x.Definite d.value)
    (hh : run.loop.Honest run.engine) (he : run.loop.Reaches run.engine e) :
    Loop.Heard (fun step n => step = 100 ∧ s.switchIterations ≤ n)
      (fun r n => Recorded (x.along d) s r (n + 1) ∧ r.NotesFull (n + 1)) e :=
  Run.heard h hx (keeps_notesFull _ s) hh
    ⟨recorded_start hrecorder rfl, notesFull_start hrecorder⟩ he

/-- **A run takes nothing away.** -/
theorem extends_of_reaches (hrecorder : start o s x = .ok recorder)
    (h : Run.start o s d x listener recorder accelerator bound = .ok run) (hx : x.Definite d.value)
    (hh : run.loop.Honest run.engine) (he : run.loop.Reaches run.engine e)
    (he' : run.loop.Reaches e e') : Extends (e.done + 1) e.listening e'.listening := by
  have hl : run.loop.listener = listener := by
    obtain ⟨-, rfl⟩ := Run.start_eq_ok_iff.1 h
    rfl
  induction he' with
  | start => exact .refl _ _
  | step hr hs ih =>
    have hstep := extends_of_step hl (heard hrecorder h hx hh (he.trans hr))
      (Loop.step_of_eq_some hs)
    exact ih.trans hstep (Nat.succ_le_succ hr.done_le)
  | stop _ ih => exact ih

/-- **All that is delivered on the stride is retained.** For any valid settings,
any definite form and an honest fast path, at every moment of a run: the
stride widens at a multiple of a hundred that has been come to, and no
earlier than it may. The recorder is full exactly if a form on the stride
had no slot, and while it is not, every form that was delivered on the
stride is found and is the start squared so often. No two iterations have
one slot. At any later moment the iterations that were delivered have their
slots still, what was in a slot is there, and if the recorder was full it is
and halts the run. -/
theorem run_retains (hrecorder : start o s x = .ok recorder)
    (h : Run.start o s d x listener recorder accelerator bound = .ok run) (hx : x.Definite d.value)
    (hh : run.loop.Honest run.engine) (he : run.loop.Reaches run.engine e) :
    (∀ point, e.listening.layout.switch = some point →
      point % 100 = 0 ∧ s.switchIterations ≤ point ∧ point ≤ e.done) ∧
    (e.listening.archive.full = false ↔ ∀ i ≤ e.done, e.listening.layout.OnStride i →
      ∃ slot, e.listening.layout.slot? i = some slot) ∧
    (e.listening.archive.full = false → ∀ i ≤ e.done, e.listening.layout.OnStride i →
      e.listening.formAt? i = .ok (some (x.along d i))) ∧
    (∀ i j slot, e.listening.layout.slot? i = some slot →
      e.listening.layout.slot? j = some slot → i = j) ∧
    (∀ e', run.loop.Reaches e e' →
      (∀ i ≤ e.done, e'.listening.layout.slot? i = e.listening.layout.slot? i) ∧
      (∀ slot f, e.listening.archive.store.get? slot = some f →
        e'.listening.archive.store.get? slot = some f) ∧
      (e.listening.archive.full = true → e'.listening.archive.full = true ∧
        ∀ done published,
          (run.loop.listener.boundary e'.listening done published).2 = .halt)) ∧
    (x.Primitive → ∀ i, x.along d i = squareTimes d i x) := by
  obtain ⟨hrecorded, hnotes⟩ := (heard hrecorder h hx hh he).keeps
  refine ⟨fun point hpoint => ?_, ?_, fun hfull i hi hon => ?_, fun i j slot hi hj => ?_,
    fun e' he' => ?_, fun hprimitive i => ?_⟩
  · obtain ⟨hmod, hle, hlt⟩ := hrecorded.switch point hpoint
    exact ⟨hmod, hle, Nat.le_of_lt_succ hlt⟩
  · simpa only [NotesFull, Nat.lt_succ_iff] using hnotes
  · exact hnotes.formAt? hrecorded hfull (Nat.lt_succ_of_le hi) hon
  · exact Widening.eq_of_slot?_eq hrecorded.layout_aligned hi hj
  · have hextends := extends_of_reaches hrecorder h hx hh he he'
    refine ⟨fun i hi => hextends.slot?_eq i (Nat.lt_succ_of_le hi), hextends.stored,
      fun hfull => ⟨hextends.full hfull, fun done published => ?_⟩⟩
    obtain ⟨-, rfl⟩ := Run.start_eq_ok_iff.1 h
    exact if_pos (.inl (hextends.full hfull))
  · exact Represents.along_eq ⟨hx, hprimitive, rfl⟩ i

/-- Settings with which the stride widens after a hundred squarings. -/
def ample71 : Settings :=
  { batchSize := 30, switchIterations := 100, maxIterations := 5000, haltMargin := 100 }

/-- Settings with which there is room for three checkpoints. -/
def narrow71 : Settings :=
  { batchSize := 30, switchIterations := 0, maxIterations := 300, haltMargin := 100 }

/-- A run of 252 squarings without a fast path. -/
def run71 (s : Settings) : Run WideningRecorder where
  settings := s
  x := reduced ⟨2, 5, 12⟩
  loop := { discriminant := Loop.discriminant71, listener, batchSize := s.batchSize
            bound := some 252 }
  engine := Loop.start (reduced ⟨2, 5, 12⟩) ((empty s).keep ⟨2, 5, 12⟩ 0) false

/-- The run as it has got to fifty squarings. -/
def passing71 (s : Settings) : Engine WideningRecorder := (run71 s).loop.runTo 50 (run71 s).engine

/-- The run as it has ended. -/
def passed71 (s : Settings) : Engine WideningRecorder := (run71 s).loop.run (passing71 s)

/-- Where there is room the stride widens after fifty squarings have been
delivered, and forms from before that and after it are found. Where there is
not, the run is full by then, and halts with its start retained. -/
theorem run_retains_71 :
    (passing71 ample71).listening.layout.switch = none ∧
    (passed71 ample71).listening.layout.switch = some 100 ∧
    (passed71 ample71).listening.layout.slot? 50 = (passing71 ample71).listening.layout.slot? 50 ∧
    (passed71 ample71).listening.formAt? 50 =
      .ok (some (along Loop.discriminant71 ⟨2, 5, 12⟩ 50)) ∧
    (passed71 ample71).listening.formAt? 200 =
      .ok (some (along Loop.discriminant71 ⟨2, 5, 12⟩ 200)) ∧
    (passing71 narrow71).listening.archive.full = true ∧
    (passed71 narrow71).listening.archive.store.get? 0 = some ⟨2, 5, 12⟩ ∧
    ((run71 narrow71).loop.listener.boundary (passed71 narrow71).listening 100 100).2 = .halt := by
  have hx : (⟨2, 5, 12⟩ : Form).Definite Loop.discriminant71.value := ⟨by decide, by decide⟩
  have hample : Run.start .stops ample71 Loop.discriminant71 ⟨2, 5, 12⟩ listener
      ((empty ample71).keep ⟨2, 5, 12⟩ 0) .absent (some 252) = .ok (run71 ample71) := rfl
  have hnarrow : Run.start .stops narrow71 Loop.discriminant71 ⟨2, 5, 12⟩ listener
      ((empty narrow71).keep ⟨2, 5, 12⟩ 0) .absent (some 252) = .ok (run71 narrow71) := rfl
  have hh : ∀ s, (run71 s).loop.unaided.Honest (run71 s).engine := fun s => Loop.honest_unaided
  have hpassing : ∀ s, (run71 s).loop.Reaches (run71 s).engine (passing71 s) :=
    fun s => (run71 s).loop.reaches_runTo 50 (run71 s).engine
  have hpassed : ∀ s, (run71 s).loop.Reaches (passing71 s) (passed71 s) :=
    fun s => (run71 s).loop.reaches_advance _ _ (passing71 s)
  have hdone : 50 ≤ (passing71 ample71).done ∧ 200 ≤ (passed71 ample71).done := by
    decide +kernel
  have hon : (passed71 ample71).listening.layout.OnStride 50 ∧
      (passed71 ample71).listening.layout.OnStride 200 := by decide +kernel
  have hroom : (passed71 ample71).listening.archive.full = false := by decide +kernel
  have hfull : (passing71 narrow71).listening.archive.full = true := by decide +kernel
  have hstored : (passing71 narrow71).listening.archive.store.get? 0 = some ⟨2, 5, 12⟩ := by
    decide +kernel
  obtain ⟨-, -, hfound, -⟩ := run_retains rfl hample hx (hh ample71)
    ((hpassing ample71).trans (hpassed ample71))
  obtain ⟨-, -, -, -, hlater, -⟩ := run_retains rfl hample hx (hh ample71) (hpassing ample71)
  obtain ⟨-, -, -, -, hafter, -⟩ := run_retains rfl hnarrow hx (hh narrow71) (hpassing narrow71)
  obtain ⟨-, hkept, hhalts⟩ := hafter _ (hpassed narrow71)
  refine ⟨by decide +kernel, by decide +kernel, (hlater _ (hpassed ample71)).1 50 hdone.1, ?_, ?_,
    hfull, hkept 0 _ hstored, (hhalts hfull).2 100 100⟩
  · exact hfound hroom 50 (Nat.le_trans (by decide) hdone.2) hon.1
  · exact hfound hroom 200 hdone.2 hon.2

end WideningRecorder

end VerifiableDelay
