import VerifiableDelay.Proof.Thirds
import VerifiableDelay.Proofs.Recorder.Retention
import VerifiableDelay.Proofs.Run.Pace
/-!
# Room for a run of unknown length

The room for checkpoints is reckoned as if the stride widened at the first
iteration that it may and the run were halted at the last it is to make. But
both happen at the end of a batch, so a batch late, and the stride widens at
the next multiple of a hundred after that. How much room a run can take is
what it takes if both are as late as they can be (`Settings.Ample`): **the
recorder never fills up exactly if the settings have that much**
(`WideningRecorder.never_full_iff`), for which it is enough that the margin is
ten times the batch and some more (`Settings.ample_of_le_haltMargin`).
-/

namespace VerifiableDelay

open Form

namespace Settings

variable {o : Overflow} {s : Settings}

/-- Where a run of unknown length is halted. -/
def haltAt (s : Settings) : Nat := s.maxIterations - s.haltMargin

/-- Checkpoints that there is room for. -/
def capacity (s : Settings) : Nat :=
  (Widening.ofLimits s.switchIterations s.maxIterations).capacity

/-- The last iteration of a batch that begins before the stride may widen. -/
def late (s : Settings) : Nat := s.switchIterations - 1 + s.batchSize

/-- The last point at which the stride can widen: the first multiple of a
hundred from the end of such a batch on, if the run is not halted there. -/
def widest (s : Settings) : Nat := (min s.late (s.haltAt - 1) + 99) / 100 * 100

/-- The last iteration of a batch that begins before the stride may widen, or
that begins before the run is halted and after the stride has widened. -/
def reach (s : Settings) : (switch : Option Nat) → Nat
  | none => s.late
  | some point => max (s.haltAt - 1) point + s.batchSize

/-- **There is room** for what a run can take. -/
structure Ample (s : Settings) : Prop where
  /-- On the stride that is not yet widened. -/
  before : s.late / 10 < s.capacity
  /-- With a stride that widens as late as it can. -/
  after : s.widest / 10 + (s.reach (some s.widest) - s.widest) / 100 < s.capacity

theorem ample_iff : s.Ample ↔ s.late / 10 < s.capacity ∧
    s.widest / 10 + (s.reach (some s.widest) - s.widest) / 100 < s.capacity :=
  ⟨fun h => ⟨h.before, h.after⟩, fun h => ⟨h.1, h.2⟩⟩

instance : DecidablePred Ample := fun _ => decidable_of_iff' _ ample_iff

/-- **A margin of ten batches and some more is enough**, as the settings there
are by default have. -/
theorem ample_of_le_haltMargin (hs : s.Valid o) (hmargin : 10 * s.batchSize + 1100 ≤ s.haltMargin) :
    s.Ample := by
  have hswitch := hs.switch_mod
  have hhalt := hs.haltMargin_lt
  have hbatch := hs.batchSize_pos
  have hlate : s.widest ≤ s.late + 99 :=
    (Nat.div_mul_le_self _ _).trans (Nat.add_le_add_right (Nat.min_le_left _ _) _)
  have hhalted : s.widest ≤ s.haltAt - 1 + 99 :=
    (Nat.div_mul_le_self _ _).trans (Nat.add_le_add_right (Nat.min_le_right _ _) _)
  have hwidest : s.widest % 100 = 0 := Nat.mul_mod_left _ _
  have hcapacity : s.capacity =
      s.switchIterations / 10 + (s.maxIterations - s.switchIterations) / 100 := rfl
  rw [late] at hlate
  rw [haltAt] at hhalted
  constructor
  · rw [late]
    omega
  · rw [reach, haltAt]
    omega

/-- A batch that was begun in time ends before the stride widens at the latest. -/
theorem le_widest {n : Nat} (hlate : n ≤ s.late) (hhalt : n < s.haltAt) : n ≤ s.widest := by
  have hmin : n ≤ min s.late (s.haltAt - 1) := le_min hlate (Nat.le_sub_one_of_lt hhalt)
  rw [widest]
  omega

/-- **A batch more is within reach** if the run is not to be halted yet and the
stride is not to be widened first. -/
theorem add_batchSize_le_reach {n : Nat} {switch : Option Nat} (hhalt : n < s.haltAt)
    (hswitch : n < s.switchIterations ∨ switch ≠ none) : n + s.batchSize ≤ s.reach switch := by
  cases switch with
  | none =>
    have hbefore : n ≤ s.switchIterations - 1 :=
      Nat.le_sub_one_of_lt (hswitch.resolve_right (absurd rfl))
    exact Nat.add_le_add_right hbefore _
  | some point =>
    exact Nat.add_le_add_right ((Nat.le_sub_one_of_lt hhalt).trans (le_max_left _ _)) _

/-- The later the stride widens, the more room is taken. -/
theorem room_mono {point : Nat} (hmod : point % 100 = 0) (hle : point ≤ s.widest) :
    point / 10 + (s.reach (some point) - point) / 100 ≤
      s.widest / 10 + (s.reach (some s.widest) - s.widest) / 100 := by
  have hwidest : s.widest % 100 = 0 := Nat.mul_mod_left _ _
  simp only [reach]
  omega

end Settings

namespace WideningRecorder

variable {o : Overflow} {s : Settings} {d : Discriminant} {x f : Form} {accelerator : Accelerator}
variable {r : WideningRecorder} {run : Run WideningRecorder} {e e' : Engine WideningRecorder}
variable {i n : Nat}

/-! ## What is known whatever is delivered -/

theorem layout_deliver (r : WideningRecorder) (f : Form) (i : Nat) :
    (r.deliver f i).layout = r.layout := by
  unfold deliver
  split <;> rfl

theorem capacity_aligned (r : WideningRecorder) (n : Nat) :
    (r.aligned n).layout.capacity = r.layout.capacity := by
  unfold aligned
  split <;> rfl

theorem switch_aligned (hnone : r.layout.switch = none) (hn : n % 100 = 0) :
    (r.aligned n).layout.switch = some n := by
  rw [aligned, if_pos (Option.isNone_iff_eq_none.2 hnone)]
  exact Widening.switch_widen _ hn

/-- The recorder has what it was handed over `n` squarings, whatever that was. -/
structure Retained (s : Settings) (r : WideningRecorder) (n : Nat) : Prop where
  recorded : ∃ history, Recorded history s r (n + 1)
  notesFull : r.NotesFull (n + 1)
  capacity_eq : r.layout.capacity = s.capacity

theorem Retained.deliver (h : Retained s r n) (f : Form) :
    Retained s (r.deliver f (n + 1)) (n + 1) := by
  obtain ⟨⟨history, hrecorded⟩, hnotes, hcapacity⟩ := h
  have hnext : Recorded (Function.update history (n + 1) f) s r (n + 1) :=
    hrecorded.congr fun i hi => (Function.update_of_ne (Nat.ne_of_lt hi) _ _).symm
  refine ⟨⟨Function.update history (n + 1) f, ?_⟩, hnotes.deliver hrecorded f, ?_⟩
  · simpa only [Function.update_self] using hnext.deliver
  · rw [layout_deliver, hcapacity]

theorem keeps_retained (history : Nat → Form) (s : Settings) :
    listener.Keeps history (fun step n => step = 100 ∧ s.switchIterations ≤ n) (Retained s) where
  deliver _ _ h := h.deliver _
  boundary _ _ _ h := h
  asks r n published step h := by
    obtain ⟨history, hrecorded⟩ := h.recorded
    exact (keeps_recorded history s).asks r n published step hrecorded
  asks_succ := (keeps_recorded history s).asks_succ
  aligned r n step h hasks hmultiple := by
    obtain ⟨history, hrecorded⟩ := h.recorded
    exact ⟨⟨history, (keeps_recorded history s).aligned r n step hrecorded hasks hmultiple⟩,
      h.notesFull.aligned (hasks.1 ▸ hmultiple), (capacity_aligned r n).trans h.capacity_eq⟩

theorem retained_start {recorder : WideningRecorder} (h : start o s x = .ok recorder) :
    Retained s recorder 0 := by
  refine ⟨⟨fun _ => x, recorded_start h rfl⟩, notesFull_start h, ?_⟩
  rw [eq_deliver_of_start h, layout_deliver]
  rfl

/-! ## How far a run gets -/

/-- The loop of a run of unknown length. -/
def loop (s : Settings) (d : Discriminant) (accelerator : Accelerator) :
    Loop WideningRecorder where
  discriminant := d
  listener
  accelerator
  batchSize := s.batchSize
  bound := none

/-- **How far the loop can get** from each phase before the recorder is asked
again: the squarings of the batch that are still to come are within reach,
and on the way to a multiple the count is not past the last one there can be. -/
def Ahead (s : Settings) (switch : Option Nat) (raised : Bool) (done : Nat) : Phase → Prop
  | .ready | .publishing false => raised = true ∨ done + s.batchSize ≤ s.reach switch
  | .asked requested => requested ≤ s.batchSize ∧ done + s.batchSize ≤ s.reach switch
  | .handing forms short => done + forms.length + short.toNat ≤ s.reach switch
  | .boundary => done ≤ s.reach switch
  | .aligning step => step = 100 ∧ switch = none ∧ done ≤ s.widest
  | .publishing true | .closing | .ended => True

/-- **What is within reach of every run**: the stride widens no later than it
can, and the count is that of a batch that was begun in time, or on the way
to the point at which the stride widens. -/
structure Within (s : Settings) (e : Engine WideningRecorder) : Prop where
  point_le : ∀ point, e.listening.layout.switch = some point → point % 100 = 0 ∧ point ≤ s.widest
  done_le : e.done ≤ s.reach e.listening.layout.switch ∨
    e.listening.layout.switch = none ∧ e.done ≤ s.widest
  ahead : Ahead s e.listening.layout.switch e.stopRaised e.done e.phase

/-- A form more is within reach if there is one. -/
theorem within_deliver
    (hpoint : ∀ point, e.listening.layout.switch = some point →
      point % 100 = 0 ∧ point ≤ s.widest)
    (hdone : e.done + 1 ≤ s.reach e.listening.layout.switch ∨
      e.listening.layout.switch = none ∧ e.done + 1 ≤ s.widest)
    (hahead : ∀ raised, Ahead s e.listening.layout.switch raised (e.done + 1) e.phase) :
    Within s ((loop s d accelerator).deliver e f) := by
  have hlayout : ((loop s d accelerator).deliver e f).listening.layout = e.listening.layout :=
    layout_deliver _ _ _
  exact ⟨hlayout ▸ hpoint, hlayout ▸ hdone, hlayout ▸ hahead _⟩

/-- **What the recorder answers** at the end of a batch. -/
theorem Retained.boundary_cases (h : Retained s r n) {published m : Nat} {answer : Boundary}
    (hanswer : (listener.boundary r m published).2 = answer) :
    answer = .halt ∧ (r.archive.full = true ∨ s.haltAt ≤ m) ∨
      r.archive.full = false ∧ m < s.haltAt ∧
        (answer = .alignTo 100 ∧ s.switchIterations ≤ m ∧ r.layout.switch = none ∨
          answer = .proceed ∧ (m < s.switchIterations ∨ r.layout.switch ≠ none)) := by
  obtain ⟨history, hrecorded⟩ := h.recorded
  subst hanswer
  simp only [listener, boundary, hrecorded.switchIterations_eq, hrecorded.haltAt_eq,
    Settings.haltAt, Option.isNone_iff_eq_none]
  split
  · rename_i hhalt
    exact .inl ⟨rfl, hhalt⟩
  · rename_i hhalt
    rw [not_or, Bool.not_eq_true, Nat.not_le] at hhalt
    refine .inr ⟨hhalt.1, hhalt.2, ?_⟩
    split
    · rename_i hswitch
      exact .inl ⟨rfl, hswitch.1, hswitch.2⟩
    · rename_i hswitch
      rw [not_and_or, Nat.not_le] at hswitch
      exact .inr ⟨rfl, hswitch⟩

/-- Whatever the recorder answers, the phase that follows is within reach. -/
theorem Retained.ahead_of_boundary (h : Retained s r n) {published m : Nat} {answer : Boundary}
    {raised before halted : Bool} {phase : Phase}
    (hanswer : (listener.boundary r m published).2 = answer)
    (hphase : answer = .proceed ∧ halted = before ∧ phase = .publishing false ∨
      (∃ step, answer = .alignTo step ∧ halted = before ∧ phase = .aligning step) ∨
      answer = .halt ∧ halted = true ∧ phase = .publishing true)
    (hreach : m ≤ s.reach r.layout.switch) : Ahead s r.layout.switch raised m phase := by
  rcases h.boundary_cases hanswer with ⟨rfl, -⟩ | ⟨-, hhalt, ⟨rfl, -, hnone⟩ | ⟨rfl, hswitch⟩⟩
  · -- halted
    obtain ⟨hne, -⟩ | ⟨step, hne, -⟩ | ⟨-, -, rfl⟩ := hphase
    · cases hne
    · cases hne
    · trivial
  · -- sent on to a multiple
    obtain ⟨hne, -⟩ | ⟨step, hstep, -, rfl⟩ | ⟨hne, -⟩ := hphase
    · cases hne
    · cases hstep
      rw [hnone] at hreach
      exact ⟨rfl, hnone, Settings.le_widest hreach hhalt⟩
    · cases hne
  · -- let on to the next batch
    obtain ⟨-, -, rfl⟩ | ⟨step, hne, -⟩ | ⟨hne, -⟩ := hphase
    · exact .inr (Settings.add_batchSize_le_reach hhalt hswitch)
    · cases hne
    · cases hne

/-- **Widening the stride** at a multiple of a hundred that is not past the last
one there can be puts the next batch within reach. -/
theorem within_announce (hnone : e.listening.layout.switch = none) (hle : e.done ≤ s.widest)
    (hmultiple : e.done % 100 = 0) (hphase : e.phase = .publishing false) :
    Within s ((loop s d accelerator).announce e) := by
  have hswitch := switch_aligned hnone hmultiple
  have hreach : e.done + s.batchSize ≤ s.reach (some e.done) :=
    Nat.add_le_add_right (le_max_right _ _) _
  refine ⟨?_, .inl ?_, ?_⟩
  · intro point hpoint
    cases hswitch.symm.trans hpoint
    exact ⟨hmultiple, hle⟩
  · show e.done ≤ s.reach (e.listening.aligned e.done).layout.switch
    rw [hswitch]
    omega
  · show Ahead s (e.listening.aligned e.done).layout.switch _ e.done e.phase
    rw [hswitch, hphase]
    exact .inr hreach

/-- **What a step keeps within reach.** -/
theorem Within.step (h : Within s e) (hs : s.Valid o) (hr : Retained s e.listening e.done)
    (hstep : (loop s d accelerator).Step e e') : Within s e' := by
  have hahead := h.ahead
  have hbatch := hs.batchSize_pos
  cases hstep with
  | stops hp | fills hp => exact ⟨h.point_le, h.done_le, trivial⟩
  | asks hp hraised =>
    rw [hp] at hahead
    exact ⟨h.point_le, h.done_le, le_rfl, hahead.resolve_left (by simp [hraised])⟩
  | @takes requested forms reply hp _ _ hforms =>
    rw [hp] at hahead
    obtain ⟨hrequested, hreach⟩ := hahead
    have hlength := Loop.length_add_short_le hforms
    refine ⟨h.point_le, h.done_le, ?_⟩
    show e.done + forms.length + (decide (forms.length < requested)).toNat ≤
      s.reach e.listening.layout.switch
    omega
  | refuses hp =>
    rw [hp] at hahead
    have hreach : e.done + 1 ≤ s.reach e.listening.layout.switch := by
      have := hahead.2
      omega
    exact within_deliver h.point_le (.inl hreach) fun _ => hreach
  | @hands f rest short hp =>
    rw [hp] at hahead
    simp only [Ahead, List.length_cons] at hahead
    refine within_deliver h.point_le (.inl ?_) fun _ => ?_
    · show e.done + 1 ≤ s.reach e.listening.layout.switch
      omega
    · show e.done + 1 + rest.length + short.toNat ≤ s.reach e.listening.layout.switch
      omega
  | @drops f rest short hp =>
    rw [hp] at hahead
    simp only [Ahead, List.length_cons] at hahead
    refine ⟨h.point_le, h.done_le, ?_⟩
    show e.done + 0 + short.toNat ≤ s.reach e.listening.layout.switch
    omega
  | topsUp hp =>
    rw [hp] at hahead
    exact within_deliver h.point_le (.inl hahead) fun _ => hahead
  | finishes hp =>
    rw [hp] at hahead
    exact ⟨h.point_le, h.done_le, Nat.le_trans (Nat.le_add_right _ _) hahead⟩
  | consults hp hanswer hphase =>
    rw [hp] at hahead
    exact ⟨h.point_le, h.done_le, hr.ahead_of_boundary hanswer hphase hahead⟩
  | aligns hp _ _ _ hmultiple =>
    rw [hp] at hahead
    obtain ⟨rfl, hnone, hle⟩ := hahead
    have hlt : e.done + 1 ≤ s.widest := by
      have hwidest : s.widest % 100 = 0 := Nat.mul_mod_left _ _
      omega
    refine within_deliver h.point_le (.inr ⟨hnone, hlt⟩) fun _ => ?_
    rw [hp]
    exact ⟨rfl, hnone, hlt⟩
  | announces hp _ hmultiple =>
    rw [hp] at hahead
    obtain ⟨rfl, hnone, hle⟩ := hahead
    exact within_announce hnone hle hmultiple rfl
  | settles hp hdone =>
    rw [hp] at hahead
    obtain ⟨rfl, -⟩ := hahead
    refine ⟨h.point_le, h.done_le, .inl ?_⟩
    rcases hdone with hzero | hroom | hraised
    · cases hzero
    · cases hroom
    · exact hraised
  | @publishes last hp =>
    rw [hp] at hahead
    cases last with
    | false => exact ⟨h.point_le, h.done_le, hahead⟩
    | true => exact ⟨h.point_le, h.done_le, trivial⟩
  | closes hp => exact ⟨h.point_le, h.done_le, trivial⟩

/-! ## Where the room suffices -/

/-- What a run of unknown length starts with. -/
theorem start_eq (h : Thirds.start o s d x accelerator = .ok run) :
    ∃ recorder, start o s x = .ok recorder ∧ s.Valid o ∧ run.loop = loop s d accelerator ∧
      run.engine = Loop.start x.reduced recorder false ∧
      Run.start o s d x listener recorder accelerator none = .ok run := by
  obtain ⟨recorder, hrecorder, hrun⟩ := bind_eq_ok_iff.1 h
  obtain ⟨hvalid, rfl⟩ := Run.start_eq_ok_iff.1 hrun
  exact ⟨recorder, hrecorder, hvalid, rfl, rfl, hrun⟩

/-- What is known of the recorder at every moment of a run. -/
theorem retained (h : Thirds.start o s d x accelerator = .ok run)
    (he : run.loop.Reaches run.engine e) : Retained s e.listening e.done := by
  obtain ⟨recorder, hrecorder, -, -, -, hrun⟩ := start_eq h
  exact Run.keeps_of_forall hrun (fun history => keeps_retained history s)
    (retained_start hrecorder) he

/-- **Every state of a run is within reach.** -/
theorem within (h : Thirds.start o s d x accelerator = .ok run)
    (he : run.loop.Reaches run.engine e) : Within s e := by
  obtain ⟨recorder, hrecorder, hvalid, hloop, hengine, -⟩ := start_eq h
  induction he with
  | start =>
    have hnone : run.engine.listening.layout.switch = none := by
      rw [hengine, eq_deliver_of_start hrecorder]
      exact congrArg Widening.switch (layout_deliver _ _ _)
    rw [hengine] at hnone ⊢
    refine ⟨fun point hpoint => ?_, .inl (Nat.zero_le _), .inr ?_⟩
    · cases hnone.symm.trans hpoint
    · rw [hnone]
      show 0 + s.batchSize ≤ s.switchIterations - 1 + s.batchSize
      omega
  | step he hs ih =>
    have hstep := Loop.step_of_eq_some hs
    rw [hloop] at hstep
    exact ih.step hvalid (retained h he) hstep
  | @stop e _ ih =>
    refine ⟨ih.point_le, ih.done_le, ?_⟩
    have hahead := ih.ahead
    show Ahead s e.listening.layout.switch true e.done e.phase
    cases hp : e.phase with
    | ready => exact .inl rfl
    | publishing last =>
      cases last with
      | false => exact .inl rfl
      | true => trivial
    | _ => rwa [hp] at hahead

/-- **What is on the stride within reach has a slot** if there is room. -/
theorem Within.exists_slot (h : Within s e) (hroom : s.Ample)
    (hcapacity : e.listening.layout.capacity = s.capacity) (hi : i ≤ e.done)
    (hon : e.listening.layout.OnStride i) :
    ∃ slot, e.listening.layout.slot? i = some slot ∧ slot < e.listening.layout.capacity := by
  have hbefore := hroom.before
  have hafter := hroom.after
  have hdone := h.done_le
  cases hs : e.listening.layout.switch with
  | none =>
    have hmod := (Widening.onStride_iff_of_none hs).1 hon
    rw [hs] at hdone
    have hlt : i / 10 < s.capacity := by
      rcases hdone with hdone | ⟨-, hdone⟩
      · replace hdone : e.done ≤ s.late := hdone
        omega
      · omega
    rw [← hcapacity] at hlt
    exact ⟨i / 10, (Widening.slot?_eq_some_iff_of_none hs).2 ⟨hmod, rfl, hlt⟩, hlt⟩
  | some point =>
    obtain ⟨hmod, hle⟩ := h.point_le point hs
    have hmono := Settings.room_mono hmod hle
    rw [hs] at hdone
    replace hdone : e.done ≤ s.reach (some point) := hdone.resolve_right fun hne => by
      cases hne.1
    rcases (Widening.onStride_iff_of_some hs).1 hon with ⟨hten, hlt⟩ | ⟨hpast, hhundred⟩
    · have hslot : i / 10 < e.listening.layout.capacity := by omega
      exact ⟨i / 10, (Widening.slot?_eq_some_iff_of_some hs).2
        ⟨hslot, .inl ⟨hlt, hten, rfl⟩⟩, hslot⟩
    · have hslot : point / 10 + (i - point) / 100 < e.listening.layout.capacity := by omega
      exact ⟨_, (Widening.slot?_eq_some_iff_of_some hs).2
        ⟨hslot, .inr ⟨hpast, hhundred, rfl⟩⟩, hslot⟩

/-- **So the recorder never fills up.** -/
theorem not_full (hroom : s.Ample) (h : Thirds.start o s d x accelerator = .ok run)
    (he : run.loop.Reaches run.engine e) : e.listening.archive.full = false := by
  have hr := retained h he
  refine hr.notesFull.2 fun i hi hon => ?_
  obtain ⟨slot, hslot, -⟩ :=
    (within h he).exists_slot hroom hr.capacity_eq (Nat.le_of_lt_succ hi) hon
  exact ⟨slot, hslot⟩

/-- **And the run is halted where it is to be**, and for no other reason. -/
theorem haltAt_le_done (hroom : s.Ample) (h : Thirds.start o s d x accelerator = .ok run)
    (he : run.loop.Reaches run.engine e) (hhalted : e.halted = true) : s.haltAt ≤ e.done := by
  obtain ⟨recorder, -, -, hloop, hengine, -⟩ := start_eq h
  induction he with
  | start =>
    rw [hengine] at hhalted
    cases hhalted
  | @step e e' he hs ih =>
    have hstep := Loop.step_of_eq_some hs
    refine le_trans ?_ hstep.done_le
    rcases hstep.halted hhalted with hbefore | hanswer
    · exact ih hbefore
    · rw [hloop] at hanswer
      rcases (retained h he).boundary_cases hanswer with ⟨-, hfull | hdone⟩ |
        ⟨-, -, ⟨hne, -⟩ | ⟨hne, -⟩⟩
      · rw [not_full hroom h he] at hfull
        cases hfull
      · exact hdone
      · cases hne
      · cases hne
  | stop _ ih => exact ih hhalted

end WideningRecorder

end VerifiableDelay
