import VerifiableDelay.Proofs.Recorder.Room
/-!
# Where a run of unknown length fills up

Batches can be so long that one begins right before the stride may widen and
ends a batch later (`WideningRecorder.exists_late`), and that, once the
stride has widened as late as it can, one begins right before the run is
halted (`WideningRecorder.exists_last`). What such a run is handed over on
the stride has slots only if there is room for it. So **no run fills up
exactly if the settings have room for what a run can take**
(`WideningRecorder.never_full_iff`), which settings that are valid may not.
-/

namespace VerifiableDelay

open Form

namespace WideningRecorder

variable {o : Overflow} {s : Settings} {d : Discriminant} {x : Form} {e : Engine WideningRecorder}
variable {run : Run WideningRecorder} {n : Nat} {pace : Nat → Nat}

/-- **No run fills up** that is started from `x`. -/
def NeverFull (o : Overflow) (s : Settings) (d : Discriminant) (x : Form) : Prop :=
  ∀ accelerator run e, Thirds.start o s d x accelerator = .ok run →
    run.loop.Reaches run.engine e → e.listening.archive.full = false

/-- The pace at which a run comes to `n` in the batch that begins right before
the stride may widen, and makes a whole batch right before it is halted. -/
def latePace (s : Settings) (n : Nat) (k : Nat) : Nat :=
  if k = s.switchIterations - 1 then n - k
  else if k = max (s.haltAt - 1) s.widest then s.batchSize
  else 1

theorem latePace_pos (hs : s.Valid o) (hn : s.switchIterations - 1 < n) (k : Nat) :
    0 < latePace s n k := by
  have hbatch := hs.batchSize_pos
  unfold latePace
  split
  · omega
  · split <;> omega

theorem exists_start (hs : s.Valid o) (accelerator : Accelerator) :
    ∃ run, Thirds.start o s d x accelerator = .ok run :=
  ⟨_, bind_eq_ok_iff.2 ⟨_, bind_eq_ok_iff.2 ⟨(), (Settings.validate_eq_ok_iff o s).2 hs, rfl⟩,
    Run.start_eq_ok_iff.2 ⟨hs, rfl⟩⟩⟩

/-- Neither a delivery nor the end of a batch widens the stride. -/
theorem leaves_switch (switch : Option Nat) :
    listener.Leaves fun r => r.layout.switch = switch where
  deliver r f n h := (congrArg Widening.switch (layout_deliver r f n)).trans h
  boundary _ _ _ h := h

/-- A run at a pace is paced, and begins with the stride it has. -/
theorem paced (h : Thirds.start o s d x (.pacing d pace) = .ok run) (hpace : ∀ k, 0 < pace k) :
    run.loop.Paced pace ∧ run.engine.AtRest (fun r => r.layout.switch = none) 0 := by
  obtain ⟨recorder, hrecorder, hvalid, hloop, hengine, -⟩ := start_eq h
  rw [hloop, hengine]
  refine ⟨⟨rfl, rfl, hvalid.batchSize_pos, hpace, fun _ => rfl⟩, rfl, rfl, rfl, rfl, ?_⟩
  show recorder.layout.switch = none
  rw [eq_deliver_of_start hrecorder]
  exact congrArg Widening.switch (layout_deliver _ _ _)

/-- **The run goes on** from the end of a batch if it has not filled up and is
not to be halted: to a multiple of a hundred if the stride is to widen, and
with the next batch otherwise. -/
theorem answer_of_not_full (h : Thirds.start o s d x (.pacing d pace) = .ok run)
    (he : run.loop.Reaches run.engine e) (hfull : e.listening.archive.full = false)
    (hdone : e.done < s.haltAt) :
    (run.loop.listener.boundary e.listening e.done e.progress.count).2 =
      if s.switchIterations ≤ e.done ∧ e.listening.layout.switch = none then .alignTo 100
      else .proceed := by
  obtain ⟨recorder, -, -, hloop, -, -⟩ := start_eq h
  rw [hloop]
  rcases (retained h he).boundary_cases
    (show (listener.boundary e.listening e.done e.progress.count).2 = _ from rfl) with
    ⟨-, hbad | hbad⟩ | ⟨-, -, ⟨hanswer, hswitch⟩ | ⟨hanswer, hswitch⟩⟩
  · rw [hfull] at hbad
    cases hbad
  · omega
  · rw [if_pos hswitch]
    exact hanswer
  · rw [if_neg fun hboth => hswitch.elim (Nat.not_lt.2 hboth.1) (absurd hboth.2)]
    exact hanswer

/-- **A batch that begins right before the stride may widen** can end anywhere
up to a batch later. -/
theorem exists_late (hs : s.Valid o) (hx : x.Definite d.value) (hnever : NeverFull o s d x)
    (hn : s.switchIterations - 1 < n) (hle : n ≤ s.late) :
    ∃ run e, Thirds.start o s d x (.pacing d (latePace s n)) = .ok run ∧
      run.loop.Reaches run.engine e ∧
      e.AtBoundary (fun r => r.layout.switch = none) n (s.switchIterations - 1) := by
  obtain ⟨run, hstart⟩ := exists_start (d := d) (x := x) hs (.pacing d (latePace s n))
  obtain ⟨hpaced, hrest⟩ := paced hstart (latePace_pos hs hn)
  obtain ⟨recorder, -, -, hloop, -, hrun⟩ := start_eq hstart
  have hsound := Run.sound hrun hx .start
  have hhalt := hs.haltMargin_lt
  have hleaves : run.loop.listener.Leaves fun r => r.layout.switch = none := by
    rw [hloop]
    exact leaves_switch none
  have hones : ∀ k, 0 ≤ k → k < s.switchIterations - 1 → latePace s n k = 1 := by
    intro k _ hk
    rw [latePace, if_neg (by omega), if_neg]
    rw [Settings.haltAt]
    omega
  obtain ⟨e, hreaches, hboundary⟩ := hpaced.exists_boundary_at hleaves hsound hrest
    (Nat.zero_le _) hones (fun e' he' k _ hk hboundary => by
      have hdone := hboundary.done_eq
      rw [answer_of_not_full hstart he' (hnever _ _ _ hstart he') (by rw [Settings.haltAt]; omega),
        if_neg (by omega)])
  refine ⟨run, e, hstart, hreaches, ?_⟩
  have hlength : s.switchIterations - 1 +
      min (latePace s n (s.switchIterations - 1)) run.loop.batchSize = n := by
    rw [latePace, if_pos rfl, hloop]
    show s.switchIterations - 1 + min (n - (s.switchIterations - 1)) s.batchSize = n
    rw [Settings.late] at hle
    omega
  rwa [hlength] at hboundary

/-- **Once the stride has widened as late as it can, a batch can begin right
before the run is halted.** -/
theorem exists_last (hs : s.Valid o) (hx : x.Definite d.value) (hnever : NeverFull o s d x)
    (hlate : s.switchIterations - 1 < min s.late (s.haltAt - 1)) :
    ∃ run e, Thirds.start o s d x
        (.pacing d (latePace s (min s.late (s.haltAt - 1)))) = .ok run ∧
      run.loop.Reaches run.engine e ∧
      e.AtBoundary (fun r => r.layout.switch = some s.widest) (s.reach (some s.widest))
        (max (s.haltAt - 1) s.widest) := by
  obtain ⟨run, e₁, hstart, hreaches₁, he₁⟩ := exists_late hs hx hnever hlate (Nat.min_le_left _ _)
  obtain ⟨hpaced, -⟩ := paced hstart (latePace_pos hs hlate)
  obtain ⟨recorder, -, -, hloop, -, hrun⟩ := start_eq hstart
  have hsound := Run.sound hrun hx .start
  have hleaves : ∀ switch, run.loop.listener.Leaves fun r => r.layout.switch = switch := by
    intro switch
    rw [hloop]
    exact leaves_switch switch
  have hwidest : s.widest % 100 = 0 := Nat.mul_mod_left _ _
  have hnext : min s.late (s.haltAt - 1) ≤ s.widest ∧
      s.widest < min s.late (s.haltAt - 1) + 100 := by
    rw [Settings.widest]
    omega
  -- on to the multiple of a hundred that is next
  have hanswer₁ : (run.loop.listener.boundary e₁.listening e₁.done e₁.progress.count).2 =
      .alignTo 100 := by
    have hdone := he₁.done_eq
    rw [answer_of_not_full hstart hreaches₁ (hnever _ _ _ hstart hreaches₁) (by omega),
      if_pos ⟨by omega, he₁.listening⟩]
  have hwidens : ∀ t : WideningRecorder, t.layout.switch = none →
      (run.loop.listener.aligned t s.widest).layout.switch = some s.widest := by
    intro t ht
    rw [hloop]
    exact switch_aligned ht hwidest
  obtain ⟨e₂, haligned, he₂⟩ : ∃ e', run.loop.Reaches e₁ e' ∧
      e'.AtRest (fun r => r.layout.switch = some s.widest) s.widest :=
    hpaced.exists_aligned (hleaves none) he₁ hanswer₁ hnext.1 hnext.2 hwidest hwidens
  have hreaches₂ := hreaches₁.trans haligned
  -- one by one until the run is to be halted next
  obtain ⟨e₃, hbatch, he₃⟩ := hpaced.exists_boundary_at (hleaves (some s.widest))
    (hreaches₂.sound hsound) he₂ (le_max_right (s.haltAt - 1) s.widest) (fun k hk hlt => by
      rw [latePace, if_neg (by omega), if_neg (by omega)]) (fun e' he' k hk hlt hboundary => by
      have hdone := hboundary.done_eq
      have hreaches' := hreaches₂.trans he'
      rw [answer_of_not_full hstart hreaches' (hnever _ _ _ hstart hreaches') (by omega),
        if_neg fun hboth => by cases hboundary.listening.symm.trans hboth.2])
  refine ⟨run, e₃, hstart, hreaches₂.trans hbatch, ?_⟩
  have hlength : max (s.haltAt - 1) s.widest + min (latePace s (min s.late (s.haltAt - 1))
      (max (s.haltAt - 1) s.widest)) run.loop.batchSize = s.reach (some s.widest) := by
    rw [latePace, if_neg (by omega), if_pos rfl, hloop]
    show max (s.haltAt - 1) s.widest + min s.batchSize s.batchSize = _
    rw [Nat.min_self, Settings.reach]
  rwa [hlength] at he₃

/-- **Where no run fills up there is room** for what a run can take. -/
theorem NeverFull.ample (hs : s.Valid o) (hx : x.Definite d.value) (hnever : NeverFull o s d x) :
    s.Ample := by
  have hbatch := hs.batchSize_pos
  have hbefore : s.late / 10 < s.capacity := by
    obtain ⟨run, e, hstart, hreaches, he⟩ := exists_late hs hx hnever (n := s.late)
      (by rw [Settings.late]; omega) le_rfl
    have hr := retained hstart hreaches
    have hnone : e.listening.layout.switch = none := he.listening
    have hdone := he.done_eq
    obtain ⟨slot, hslot⟩ := hr.notesFull.1 (hnever _ _ _ hstart hreaches) (s.late / 10 * 10)
      (by omega) ((Widening.onStride_iff_of_none hnone).2 (Nat.mul_mod_left _ _))
    obtain ⟨-, rfl, hlt⟩ := (Widening.slot?_eq_some_iff_of_none hnone).1 hslot
    rw [hr.capacity_eq] at hlt
    omega
  refine ⟨hbefore, ?_⟩
  by_cases hlate : s.switchIterations - 1 < min s.late (s.haltAt - 1)
  · obtain ⟨run, e, hstart, hreaches, he⟩ := exists_last hs hx hnever hlate
    have hr := retained hstart hreaches
    have hsome : e.listening.layout.switch = some s.widest := he.listening
    have hdone := he.done_eq
    have hreach : s.widest ≤ s.reach (some s.widest) :=
      (le_max_right _ _).trans (Nat.le_add_right _ _)
    obtain ⟨slot, hslot⟩ := hr.notesFull.1 (hnever _ _ _ hstart hreaches)
      (s.widest + (s.reach (some s.widest) - s.widest) / 100 * 100) (by omega)
      ((Widening.onStride_iff_of_some hsome).2 (.inr ⟨Nat.le_add_right _ _, by omega⟩))
    obtain ⟨hlt, ⟨hbelow, -⟩ | ⟨-, -, rfl⟩⟩ := (Widening.slot?_eq_some_iff_of_some hsome).1 hslot
    · omega
    · rw [hr.capacity_eq] at hlt
      omega
  · -- the run is halted after its first batch, so the stride does not widen
    have hvalid := hs.haltMargin_lt
    obtain ⟨hswitch, hhalt⟩ : s.switchIterations = 0 ∧ s.haltAt = 1 := by
      simp only [Settings.late, Settings.haltAt] at hlate ⊢
      omega
    simp only [Settings.widest, Settings.reach, Settings.late, hhalt, hswitch] at hbefore ⊢
    omega

/-- **No run fills up exactly if there is room for what a run can take.** For
any valid settings and any definite form, whatever the fast path answers and
whenever the run is stopped: at every moment of it nothing was turned away,
every iteration on the stride that has been come to has a slot below the
capacity, the run is halted only past the iteration where it is to be, and if
it has ended it was halted or stopped, just if the settings have room for a
stride that widens as late as it can and for the batches that are under way
when it is to widen and when the run is to be halted. -/
theorem never_full_iff (hs : s.Valid o) (hx : x.Definite d.value) :
    (∀ accelerator run e, Thirds.start o s d x accelerator = .ok run →
      run.loop.Reaches run.engine e →
        e.listening.archive.full = false ∧
        (∀ i ≤ e.done, e.listening.layout.OnStride i → ∃ slot,
          e.listening.layout.slot? i = some slot ∧ slot < e.listening.layout.capacity) ∧
        (e.halted = true → s.maxIterations - s.haltMargin ≤ e.done) ∧
        (e.phase = .ended → e.halted = true ∨ e.stopped = true)) ↔
      s.Ample := by
  constructor
  · intro hnever
    exact NeverFull.ample hs hx fun accelerator run e hstart he =>
      (hnever accelerator run e hstart he).1
  · intro hroom accelerator run e hstart he
    refine ⟨not_full hroom hstart he, fun i hi hon => ?_, haltAt_le_done hroom hstart he,
      fun hended => ?_⟩
    · exact (within hstart he).exists_slot hroom (retained hstart he).capacity_eq hi hon
    · obtain ⟨recorder, -, -, hloop, -, hrun⟩ := start_eq hstart
      have hexpected := (Run.sound hrun hx he).expected
      rw [Loop.Expected, hended] at hexpected
      rcases hexpected.1 with hhalted | hstopped | hbound
      · exact .inl hhalted
      · exact .inr hstopped
      · rw [hloop] at hbound
        cases hbound

/-- Settings with which the stride may widen after a hundred squarings, and a
run is to be halted after five hundred. -/
def hurried71 : Settings :=
  { batchSize := 30, switchIterations := 100, maxIterations := 600, haltMargin := 100 }

/-- With the settings there are by default no run fills up, and with these some
run does. -/
theorem never_full_iff_71 :
    (∀ accelerator run e,
      Thirds.start .stops {} Loop.discriminant71 ⟨2, 5, 12⟩ accelerator = .ok run →
        run.loop.Reaches run.engine e →
          e.listening.archive.full = false ∧
          (∀ i ≤ e.done, e.listening.layout.OnStride i → ∃ slot,
            e.listening.layout.slot? i = some slot ∧ slot < e.listening.layout.capacity) ∧
          (e.halted = true → 799500000 ≤ e.done) ∧
          (e.phase = .ended → e.halted = true ∨ e.stopped = true)) ∧
    ¬ ∀ accelerator run e,
      Thirds.start .stops hurried71 Loop.discriminant71 ⟨2, 5, 12⟩ accelerator = .ok run →
        run.loop.Reaches run.engine e →
          e.listening.archive.full = false ∧
          (∀ i ≤ e.done, e.listening.layout.OnStride i → ∃ slot,
            e.listening.layout.slot? i = some slot ∧ slot < e.listening.layout.capacity) ∧
          (e.halted = true → 500 ≤ e.done) ∧
          (e.phase = .ended → e.halted = true ∨ e.stopped = true) := by
  have hx : (⟨2, 5, 12⟩ : Form).Definite Loop.discriminant71.value := ⟨by decide, by decide⟩
  have hdefault : ({} : Settings).Valid .stops := (Settings.fault?_eq_none_iff _ _).1 rfl
  have hhurried : hurried71.Valid .stops := (Settings.fault?_eq_none_iff _ _).1 rfl
  exact ⟨(never_full_iff hdefault hx).2 (Settings.ample_of_le_haltMargin hdefault (by decide)),
    fun h => absurd ((never_full_iff hhurried hx).1 h) (by decide)⟩

/-- A run on a fast path that makes all that it is asked for. -/
def hurriedRun71 : Run WideningRecorder where
  settings := hurried71
  x := reduced ⟨2, 5, 12⟩
  loop := loop hurried71 Loop.discriminant71 (.pacing Loop.discriminant71 fun _ => 30)
  engine := Loop.start (reduced ⟨2, 5, 12⟩) ((empty hurried71).keep ⟨2, 5, 12⟩ 0) false

/-- The run as it has ended. -/
def hurriedEnd71 : Engine WideningRecorder :=
  hurriedRun71.loop.advance (fun _ => false) 300 hurriedRun71.engine

/-- Such settings are valid. The batch in which the stride may widen ends after
120 squarings, so the stride widens after 200. By then iteration 150 has no
slot any more, and the run is halted after 230, though it is to be halted
after 500. -/
theorem fills_up_71 :
    hurried71.validate .stops = .ok () ∧
      Thirds.start .stops hurried71 Loop.discriminant71 ⟨2, 5, 12⟩
        (.pacing Loop.discriminant71 fun _ => 30) = .ok hurriedRun71 ∧
      hurriedRun71.loop.Reaches hurriedRun71.engine hurriedEnd71 ∧
      (hurriedEnd71.phase = .ended ∧ hurriedEnd71.halted = true ∧ hurriedEnd71.stopped = false) ∧
      hurriedEnd71.listening.archive.full = true ∧
      (hurriedEnd71.done = 230 ∧ hurriedEnd71.listening.layout.OnStride 150 ∧
        hurriedEnd71.listening.layout.slot? 150 = none) ∧
      ¬ hurried71.maxIterations - hurried71.haltMargin ≤ hurriedEnd71.done := by
  refine ⟨rfl, rfl, hurriedRun71.loop.reaches_advance _ _ _, ?_⟩
  decide +kernel

end WideningRecorder

end VerifiableDelay
