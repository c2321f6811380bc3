import VerifiableDelay.Proofs.Run.Listening
/-!
# How far a run gets in a batch

A fast path that is honest may still come short of what it is asked for, and
nothing says by how much. With one that is paced each batch is as long as is
wanted, up to the batch size (`Loop.Paced.exists_boundary`), so **the count
can be brought to any number** as long as the listener lets the loop go on
(`Loop.Paced.exists_atRest`), and on to the next multiple where it asks for
one (`Loop.Paced.exists_aligned`). This is how it is shown that what is said
of every run is not said too cautiously.
-/

namespace VerifiableDelay

open Form

/-- The forms that the first `n` squarings of `f` lead to. -/
def Form.successors (d : Discriminant) (f : Form) (n : Nat) : List Form :=
  (List.range n).map fun i => f.squareTimes d (i + 1)

namespace Accelerator

/-- What a fast path makes itself of a batch that is to be `pace` squarings
long. The loop makes up for one where the batch is short. -/
def share (pace requested : Nat) : Nat := if requested ≤ pace then requested else pace - 1

/-- A fast path with which the loop gets on by `pace n` squarings from the
`n`th. -/
def pacing (d : Discriminant) (pace : Nat → Nat) : Accelerator := fun _ f done requested =>
  some { outcome := .completed (f.successors d (share (pace done) requested)) }

theorem share_le {pace requested : Nat} : share pace requested ≤ requested := by
  unfold share
  split <;> omega

/-- With the one that the loop makes, a batch is as long as it is to be. -/
theorem share_toppedUp {pace requested : Nat} (hpace : 0 < pace) :
    (if share pace requested < requested then share pace requested + 1
      else share pace requested) = min pace requested := by
  unfold share
  split <;> split <;> omega

end Accelerator

variable {σ : Type}

/-- **What a listener leaves true** of its state, whatever is delivered to it and
wherever a batch ends. -/
structure Listener.Leaves (listener : Listener σ) (Q : σ → Prop) : Prop where
  deliver : ∀ t f n, Q t → Q (listener.deliver t f n)
  boundary : ∀ t n published, Q t → Q (listener.boundary t n published).1

theorem Listener.leaves_true (listener : Listener σ) : listener.Leaves fun _ => True :=
  ⟨fun _ _ _ _ => trivial, fun _ _ _ _ => trivial⟩

namespace Engine

/-- Between two batches, with `n` squarings made and published, and `Q` true of
the listener. -/
structure AtRest (Q : σ → Prop) (e : Engine σ) (n : Nat) : Prop where
  phase_eq : e.phase = .ready
  stopRaised_eq : e.stopRaised = false
  done_eq : e.done = n
  count_eq : e.progress.count = n
  listening : Q e.listening

/-- At the end of a batch, with `n` squarings made and `published` of them
published, and `Q` true of the listener. -/
structure AtBoundary (Q : σ → Prop) (e : Engine σ) (n published : Nat) : Prop where
  phase_eq : e.phase = .boundary
  stopRaised_eq : e.stopRaised = false
  done_eq : e.done = n
  count_eq : e.progress.count = published
  listening : Q e.listening

end Engine

namespace Loop

variable {l : Loop σ} {e e₀ : Engine σ} {f : Form} {pace : Nat → Nat} {n m : Nat}
variable {Q : σ → Prop}

theorem length_successors (d : Discriminant) (f : Form) (n : Nat) :
    (f.successors d n).length = n := by
  rw [successors, List.length_map, List.length_range]

theorem successive_successors (d : Discriminant) (f : Form) (n : Nat) :
    Successive d f (f.successors d n) := by
  intro i g hg
  rw [successors, List.getElem?_map, Option.map_eq_some_iff] at hg
  obtain ⟨j, hj, rfl⟩ := hg
  obtain ⟨hlt, rfl⟩ := List.getElem?_eq_some_iff.1 hj
  rw [List.getElem_range]

theorem Fits.squareTimes (hf : l.Fits f) (n : Nat) : l.Fits (f.squareTimes l.discriminant n) := by
  induction n generalizing f with
  | zero => exact hf
  | succ n ih => exact ih hf.square

/-- Successive squares are taken, unless there are none. -/
theorem accepts_successors_iff (hf : l.Fits f) (hn : n ≤ m) :
    l.accepts (f.successors l.discriminant n) m = true ↔ 0 < n := by
  simp only [accepts, length_successors, hn, decide_true, Bool.and_true, Bool.and_eq_true,
    Bool.not_eq_true', List.isEmpty_eq_false_iff, List.all_eq_true, beq_iff_eq,
    ← List.length_pos_iff, and_iff_left_iff_imp]
  rintro - g hg
  obtain ⟨i, -, rfl⟩ := List.mem_map.1 hg
  exact ⟨(hf.squareTimes (i + 1)).1, (hf.squareTimes (i + 1)).2.discriminant_eq⟩

/-! ## Paced runs -/

/-- **A run that is paced**: it has no bound, and its listener does not want
it stopped. -/
structure Paced (l : Loop σ) (pace : Nat → Nat) : Prop where
  accelerator_eq : l.accelerator = .pacing l.discriminant pace
  bound_eq : l.bound = none
  batchSize_pos : 0 < l.batchSize
  pace_pos : ∀ n, 0 < pace n
  stops_eq : ∀ t, l.listener.stops t = false

/-- **It is honest.** -/
theorem Paced.honest (hl : l.Paced pace) : l.Honest e₀ := by
  intro e requested reply forms _ _ hreply houtcome _
  rw [hl.accelerator_eq] at hreply
  cases hreply
  cases houtcome
  exact successive_successors _ _ _

/-- The forms of a batch are handed on. -/
theorem Paced.exists_handed (hl : l.Paced pace) (hQ : l.listener.Leaves Q) {forms : List Form}
    {short : Bool} (hp : e.phase = .handing forms short) (hs : e.stopRaised = false)
    (hlistening : Q e.listening) :
    ∃ e', l.Reaches e e' ∧ e'.phase = .handing [] short ∧ e'.stopRaised = false ∧
      e'.done = e.done + forms.length ∧ e'.progress = e.progress ∧ Q e'.listening := by
  induction forms generalizing e with
  | nil => exact ⟨e, .start, hp, hs, rfl, rfl, hlistening⟩
  | cons f rest ih =>
    have hstep : l.step? e = some (l.deliver { e with
        fastIterations := e.fastIterations + 1, phase := .handing rest short } f) := by
      simp only [step?, hp, hs, Bool.false_eq_true, if_false]
    obtain ⟨e', hreaches, hphase, hraised, hdone, hprogress, hkept⟩ :=
      ih (e := l.deliver { e with
        fastIterations := e.fastIterations + 1, phase := .handing rest short } f) rfl
        (by simp only [deliver, hs, hl.stops_eq, Bool.or_false]) (hQ.deliver _ _ _ hlistening)
    refine ⟨e', (Reaches.start.step hstep).trans hreaches, hphase, hraised, ?_, hprogress, hkept⟩
    simp only [hdone, deliver, List.length_cons]
    omega

/-- A short batch is topped up. -/
theorem Paced.exists_toppedUp (hl : l.Paced pace) (hQ : l.listener.Leaves Q) {short : Bool}
    (hp : e.phase = .handing [] short) (hs : e.stopRaised = false) (hlistening : Q e.listening) :
    ∃ e', l.Reaches e e' ∧ e'.AtBoundary Q (e.done + short.toNat) e.progress.count := by
  have hroom : l.hasRoom e.done = true := by simp only [hasRoom, hl.bound_eq]
  cases short with
  | false =>
    have hstep : l.step? e = some { e with phase := .boundary } := by
      simp only [step?, hp, Bool.false_and, Bool.false_eq_true, if_false]
    exact ⟨_, Reaches.start.step hstep, rfl, hs, rfl, rfl, hlistening⟩
  | true =>
    have hstep : l.step? e = some (l.square { e with phase := .boundary }) := by
      simp only [step?, hp, hs, hroom, Bool.not_false, Bool.and_self, if_true]
    refine ⟨_, Reaches.start.step hstep, rfl, ?_, rfl, rfl, hQ.deliver _ _ _ hlistening⟩
    simp only [Loop.square, deliver, hs, hl.stops_eq, Bool.or_false]

/-- The forms of `k` squarings are taken and topped up, or there are none and
one squaring is made. -/
theorem Paced.exists_received (hl : l.Paced pace) (hQ : l.listener.Leaves Q)
    {k requested : Nat} (hp : e.phase = .asked requested) (hs : e.stopRaised = false)
    (hlistening : Q e.listening) (hfits : l.Fits e.form) (hpos : 0 < requested)
    (hk : k ≤ requested) (hreply : l.accelerator e.attempts e.form e.done requested =
      some { outcome := .completed (e.form.successors l.discriminant k) }) :
    ∃ e', l.Reaches e e' ∧
      e'.AtBoundary Q (e.done + if k < requested then k + 1 else k) e.progress.count := by
  have hstep : l.step? e = some (l.receive e requested
      { outcome := .completed (e.form.successors l.discriminant k) }) := by
    simp only [step?, hp, hreply, Option.map_some]
  have hreceived := Reaches.start.step hstep
  have haccepts := accepts_successors_iff hfits hk
  by_cases hsome : 0 < k
  · simp only [receive, haccepts.2 hsome, if_true, length_successors] at hreceived
    obtain ⟨e₁, hhanded, hp₁, hs₁, hdone₁, hprogress₁, hlistening₁⟩ :=
      hl.exists_handed hQ (e := { e with
        attempts := e.attempts + 1, stopRaised := e.stopRaised || false
        fastBatches := e.fastBatches + 1
        phase := .handing (e.form.successors l.discriminant k) (decide (k < requested)) }) rfl
        (by rw [hs]; rfl) hlistening
    obtain ⟨e₂, htopped, he₂⟩ := hl.exists_toppedUp hQ hp₁ hs₁ hlistening₁
    refine ⟨e₂, (hreceived.trans hhanded).trans htopped, ?_⟩
    rw [hprogress₁, hdone₁, length_successors] at he₂
    by_cases hshort : k < requested
    · simpa only [hshort, decide_true, Bool.toNat_true, if_true, Nat.add_assoc] using he₂
    · simpa only [hshort, decide_false, Bool.toNat_false, if_false, Nat.add_zero] using he₂
  · obtain rfl : k = 0 := by omega
    simp only [receive, mt haccepts.1 hsome, Bool.false_eq_true, if_false] at hreceived
    refine ⟨_, hreceived, rfl, ?_, ?_, rfl, hQ.deliver _ _ _ hlistening⟩
    · simp only [Loop.square, deliver, hs, hl.stops_eq, Bool.or_false]
    · simp only [hpos, if_true, Nat.zero_add]
      rfl

/-- **A batch is as long as the pace says**, or as long as it can be. -/
theorem Paced.exists_boundary (hl : l.Paced pace) (hQ : l.listener.Leaves Q)
    (he : e.AtRest Q n) (hfits : l.Fits e.form) :
    ∃ e', l.Reaches e e' ∧ e'.AtBoundary Q (n + min (pace n) l.batchSize) n := by
  obtain ⟨hp, hs, rfl, hcount, hlistening⟩ := he
  have hasks : l.step? e = some { e with phase := .asked l.batchSize } := by
    simp only [step?, hp, hs, hasRoom, requested, hl.bound_eq, Bool.false_eq_true, if_false,
      if_true]
  obtain ⟨e', hreaches, he'⟩ := hl.exists_received hQ
    (e := { e with phase := .asked l.batchSize })
    (k := Accelerator.share (pace e.done) l.batchSize) rfl hs hlistening hfits hl.batchSize_pos
    Accelerator.share_le (by simp only [hl.accelerator_eq, Accelerator.pacing])
  refine ⟨e', (Reaches.start.step hasks).trans hreaches, ?_⟩
  simpa only [Accelerator.share_toppedUp (hl.pace_pos e.done), hcount] using he'

/-- **The count is published** at the end of a batch, unless the loop is sent
on to a multiple, and the next batch follows where it is to go on. -/
theorem Paced.exists_published (hl : l.Paced pace) (hQ : l.listener.Leaves Q)
    {published : Nat} {answer : Boundary} (he : e.AtBoundary Q n published)
    (hanswer : (l.listener.boundary e.listening e.done e.progress.count).2 = answer)
    (hstays : ∀ step, answer ≠ .alignTo step) :
    ∃ e₁ e', l.Reaches e e₁ ∧ l.step? e₁ = some e' ∧ e₁.progress.count = published ∧
      e'.progress.count = n ∧ e'.done = n ∧ (answer = .proceed → e'.AtRest Q n) := by
  obtain ⟨hp, hs, rfl, rfl, hlistening⟩ := he
  have hconsults : l.step? e = some (l.consult e) := by rw [step?, hp]
  have hreached := Reaches.start.step hconsults
  cases answer with
  | proceed =>
    simp only [consult, hanswer] at hreached
    exact ⟨_, _, hreached, rfl, rfl, rfl, rfl, fun _ =>
      ⟨rfl, by simp only [hs, hl.stops_eq, Bool.or_false], rfl, rfl,
        hQ.boundary _ _ _ hlistening⟩⟩
  | halt =>
    simp only [consult, hanswer] at hreached
    exact ⟨_, _, hreached, rfl, rfl, rfl, rfl, fun h => by cases h⟩
  | alignTo step => exact absurd rfl (hstays step)

/-- **The count is brought to `m`**, one by one, if the listener lets the loop
go on until then. -/
theorem Paced.exists_atRest (hl : l.Paced pace) (hQ : l.listener.Leaves Q) (hsound : l.Sound e)
    (he : e.AtRest Q n) (hle : n ≤ m) (hones : ∀ k, n ≤ k → k < m → pace k = 1)
    (hproceeds : ∀ e', l.Reaches e e' → ∀ k, n ≤ k → k < m → e'.AtBoundary Q (k + 1) k →
      (l.listener.boundary e'.listening e'.done e'.progress.count).2 = .proceed) :
    ∃ e', l.Reaches e e' ∧ e'.AtRest Q m := by
  induction hle with
  | refl => exact ⟨e, .start, he⟩
  | @step m hle ih =>
    obtain ⟨e₁, hreaches, he₁⟩ := ih (fun k hk hlt => hones k hk (by omega))
      (fun e' he' k hk hlt => hproceeds e' he' k hk (by omega))
    obtain ⟨e₂, hbatch, he₂⟩ := hl.exists_boundary hQ he₁ (hreaches.sound hsound).fits
    rw [hones m hle (Nat.lt_succ_self m), Nat.min_eq_left hl.batchSize_pos] at he₂
    have hanswer := hproceeds e₂ (hreaches.trans hbatch) m hle (Nat.lt_succ_self m) he₂
    obtain ⟨e₃, e₄, hconsulted, hstep, -, -, -, hrest⟩ :=
      hl.exists_published hQ he₂ hanswer (fun step => Boundary.noConfusion)
    exact ⟨e₄, ((hreaches.trans hbatch).trans hconsulted).step hstep, hrest rfl⟩

/-- So a batch can be made to begin at `m`. -/
theorem Paced.exists_boundary_at (hl : l.Paced pace) (hQ : l.listener.Leaves Q)
    (hsound : l.Sound e) (he : e.AtRest Q n) (hle : n ≤ m)
    (hones : ∀ k, n ≤ k → k < m → pace k = 1)
    (hproceeds : ∀ e', l.Reaches e e' → ∀ k, n ≤ k → k < m → e'.AtBoundary Q (k + 1) k →
      (l.listener.boundary e'.listening e'.done e'.progress.count).2 = .proceed) :
    ∃ e', l.Reaches e e' ∧ e'.AtBoundary Q (m + min (pace m) l.batchSize) m := by
  obtain ⟨e₁, hreaches, hrest⟩ := hl.exists_atRest hQ hsound he hle hones hproceeds
  obtain ⟨e₂, hbatch, hboundary⟩ := hl.exists_boundary hQ hrest (hreaches.sound hsound).fits
  exact ⟨e₂, hreaches.trans hbatch, hboundary⟩

/-- The loop squares on to a multiple that is next. -/
theorem Paced.exists_multiple (hl : l.Paced pace) (hQ : l.listener.Leaves Q) {step : Nat}
    (hp : e.phase = .aligning step) (hs : e.stopRaised = false) (hlistening : Q e.listening)
    (hle : e.done ≤ m) (hlt : m < e.done + step) (hm : m % step = 0) :
    ∃ e', l.Reaches e e' ∧ e'.phase = .aligning step ∧ e'.stopRaised = false ∧ e'.done = m ∧
      Q e'.listening := by
  obtain ⟨k, rfl⟩ := Nat.exists_eq_add_of_le hle
  induction k generalizing e with
  | zero => exact ⟨e, .start, hp, hs, rfl, hlistening⟩
  | succ k ih =>
    have hmultiple : e.done % step ≠ 0 := by
      intro hzero
      rw [Nat.add_mod, hzero, Nat.zero_add, Nat.mod_mod, Nat.mod_eq_of_lt (by omega)] at hm
      omega
    have hstep : l.step? e = some (l.square e) := by
      simp only [step?, hp, hs, hmultiple, hasRoom, hl.bound_eq, if_false, if_true,
        show step ≠ 0 by omega, Bool.not_false, Bool.and_self]
    obtain ⟨e', hreaches, hafter⟩ := ih (e := l.square e) hp
      (by simp only [Loop.square, deliver, hs, hl.stops_eq, Bool.or_false])
      (hQ.deliver _ _ _ hlistening) (Nat.le_add_right _ _)
      (show e.done + 1 + k < e.done + 1 + step by omega)
      (show (e.done + 1 + k) % step = 0 by rwa [Nat.add_right_comm, Nat.add_assoc])
    refine ⟨e', (Reaches.start.step hstep).trans hreaches, ?_⟩
    simpa only [Loop.square, deliver, Nat.add_right_comm, Nat.add_assoc] using hafter

/-- **From the end of a batch the loop goes on to the next multiple** where the
listener asks for one, tells it so and publishes it. -/
theorem Paced.exists_aligned (hl : l.Paced pace) (hQ : l.listener.Leaves Q) {step published : Nat}
    {Q' : σ → Prop} (he : e.AtBoundary Q n published)
    (hanswer : (l.listener.boundary e.listening e.done e.progress.count).2 = .alignTo step)
    (hle : n ≤ m) (hlt : m < n + step) (hm : m % step = 0)
    (haligned : ∀ t, Q t → Q' (l.listener.aligned t m)) :
    ∃ e', l.Reaches e e' ∧ e'.AtRest Q' m := by
  obtain ⟨hp, hs, rfl, -, hlistening⟩ := he
  have hconsults : l.step? e = some (l.consult e) := by rw [step?, hp]
  have hreached := Reaches.start.step hconsults
  simp only [consult, hanswer] at hreached
  obtain ⟨e₁, hmultiple, hp₁, hs₁, rfl, hlistening₁⟩ := hl.exists_multiple hQ (e := { e with
    listening := (l.listener.boundary e.listening e.done e.progress.count).1
    stopRaised := e.stopRaised || l.listener.stops
      (l.listener.boundary e.listening e.done e.progress.count).1
    phase := .aligning step }) rfl (by simp only [hs, hl.stops_eq, Bool.or_false])
    (hQ.boundary _ _ _ hlistening) hle hlt hm
  have hannounces : l.step? e₁ = some (l.announce { e₁ with phase := .publishing false }) := by
    simp only [step?, hp₁, hm, if_true, if_neg (show step ≠ 0 by omega)]
  refine ⟨_, ((hreached.trans hmultiple).step hannounces).step rfl, rfl, ?_, rfl, rfl,
    haligned _ hlistening₁⟩
  simp only [announce, hs₁, hl.stops_eq, Bool.or_false]

end Loop

end VerifiableDelay
