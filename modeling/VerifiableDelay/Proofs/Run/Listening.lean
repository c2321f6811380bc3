import VerifiableDelay.Proofs.Class.Power
import VerifiableDelay.Proofs.Run.Transparency
import VerifiableDelay.Run.Session
/-!
# What a listener makes of a run

A step calls a listener in one way at most (`Loop.Step.listening`). So what
each call keeps of its state and the count, given the form that an honest
run comes to, holds at every moment of such a run (`Loop.Reaches.heard`). A
listener that never asks for a multiple hears of no more than a batch
before the count is published: **the loop is a batch ahead at most**
(`Loop.Reaches.done_le_add`). Of a run that is started from a form, both are
said of the forms that it is squared to (`Run.keeps`, `Run.done_le_add`).
-/

namespace VerifiableDelay

open Form

variable {σ : Type}

/-- **What a listener keeps** true of its state and the count, if it is
handed the forms of `history`. Where it asks for a multiple of `step` it is
told of one once `Asks` holds of that and the count. -/
structure Listener.Keeps (listener : Listener σ) (history : Nat → Form)
    (Asks : (step n : Nat) → Prop) (P : σ → Nat → Prop) : Prop where
  deliver : ∀ s n, P s n → P (listener.deliver s (history (n + 1)) (n + 1)) (n + 1)
  boundary : ∀ s n published, P s n → P (listener.boundary s n published).1 n
  asks : ∀ s n published step, P s n → (listener.boundary s n published).2 = .alignTo step →
    Asks step n
  asks_succ : ∀ step n, Asks step n → Asks step (n + 1)
  aligned : ∀ s n step, P s n → Asks step n → n % step = 0 → P (listener.aligned s n) n

namespace Loop

variable {l : Loop σ} {e e' e₀ : Engine σ} {x : Form}
variable {history : Nat → Form} {Asks : Nat → Nat → Prop} {P : σ → Nat → Prop}

/-- **What a step does to the listener**: nothing, one call that leaves the
count as it is, or the delivery of the form that is come to. -/
theorem Step.listening (hs : l.Step e e') :
    e'.done = e.done ∧ (e'.listening = e.listening ∨
      e'.listening = (l.listener.boundary e.listening e.done e.progress.count).1 ∨
      ∃ step, e.phase = .aligning step ∧ e.done % step = 0 ∧
        e'.listening = l.listener.aligned e.listening e.done) ∨
    e'.done = e.done + 1 ∧
      e'.listening = l.listener.deliver e.listening e'.form (e.done + 1) := by
  cases hs with
  | refuses | hands | topsUp | aligns => exact .inr ⟨rfl, rfl⟩
  | consults => exact .inl ⟨rfl, .inr (.inl rfl)⟩
  | announces hp _ hmultiple => exact .inl ⟨rfl, .inr (.inr ⟨_, hp, hmultiple, rfl⟩)⟩
  | _ => exact .inl ⟨rfl, .inl rfl⟩

/-- The loop is on its way to a multiple only where the listener asked for
one. -/
theorem Step.aligning {step : Nat} (hs : l.Step e e') (hp : e'.phase = .aligning step) :
    e.phase = .aligning step ∨
      (l.listener.boundary e.listening e.done e.progress.count).2 = .alignTo step ∧
        e'.done = e.done := by
  cases hs with
  | consults _ hanswer hphase =>
    rcases hphase with ⟨-, -, rfl⟩ | ⟨step', rfl, -, rfl⟩ | ⟨-, -, rfl⟩
    · cases hp
    · cases hp
      exact .inr ⟨hanswer, rfl⟩
    · cases hp
  | aligns hp' => exact .inl hp
  | @publishes last => cases last <;> cases hp
  | _ => cases hp

/-- What is kept, and what is asked for. -/
structure Heard (Asks : (step n : Nat) → Prop) (P : σ → Nat → Prop) (e : Engine σ) : Prop where
  keeps : P e.listening e.done
  asks : ∀ step, e.phase = .aligning step → Asks step e.done

theorem Heard.step (h : Heard Asks P e) (hk : l.listener.Keeps history Asks P)
    (hs : l.Step e e') (hform : e'.done = e.done + 1 → e'.form = history (e.done + 1)) :
    Heard Asks P e' := by
  have hkeeps : P e'.listening e'.done := by
    rcases hs.listening with ⟨hdone, hl | hl | ⟨step, hp, hmultiple, hl⟩⟩ | ⟨hdone, hl⟩
    · rw [hdone, hl]
      exact h.keeps
    · rw [hdone, hl]
      exact hk.boundary _ _ _ h.keeps
    · rw [hdone, hl]
      exact hk.aligned _ _ step h.keeps (h.asks step hp) hmultiple
    · rw [hl, hdone, hform hdone]
      exact hk.deliver _ _ h.keeps
  refine ⟨hkeeps, fun step hp => ?_⟩
  rcases hs.aligning hp with hp' | ⟨hanswer, hdone⟩
  · have hasks := h.asks step hp'
    rcases hs.listening with ⟨hdone, -⟩ | ⟨hdone, -⟩ <;> rw [hdone]
    · exact hasks
    · exact hk.asks_succ step _ hasks
  · rw [hdone]
    exact hk.asks _ _ _ step h.keeps hanswer

/-- **What a listener keeps holds at every moment** of an honest run. -/
theorem Reaches.heard (h : l.Reaches e₀ e) (hk : l.listener.Keeps history Asks P)
    (hh : l.Honest e₀) (hsquared : l.Squared x e₀)
    (hhistory : ∀ n, history (n + 1) = squareTimes l.discriminant (n + 1) x)
    (h₀ : Heard Asks P e₀) : Heard Asks P e := by
  induction h with
  | start => exact h₀
  | @step e e' hr hs ih =>
    refine ih.step hk (step_of_eq_some hs) fun hdone => ?_
    rw [((hr.step hs).squared hh hsquared).form_eq, hdone, hhistory]
  | stop _ ih => exact ⟨ih.keeps, ih.asks⟩

/-- So it does at every moment of any run, if it is kept whatever is
delivered. -/
theorem Reaches.heard_of_forall (h : l.Reaches e₀ e)
    (hk : ∀ history, l.listener.Keeps history Asks P) (h₀ : Heard Asks P e₀) :
    Heard Asks P e := by
  induction h with
  | start => exact h₀
  | @step e e' _ hs ih => exact ih.step (hk fun _ => e'.form) (step_of_eq_some hs) fun _ => rfl
  | stop _ ih => exact ⟨ih.keeps, ih.asks⟩

/-! ## How far the loop is ahead -/

/-- A step makes one squaring at most. -/
theorem Step.done_le (hs : l.Step e e') : e.done ≤ e'.done := by
  rcases hs.listening with ⟨hdone, -⟩ | ⟨hdone, -⟩ <;> omega

/-- What is published is the count there was, or the one that is come to. -/
theorem Step.count_eq (hs : l.Step e e') :
    e'.progress.count = e.progress.count ∨ e'.progress.count = e.done := by
  cases hs with
  | publishes => exact .inr rfl
  | _ => exact .inl rfl

theorem Reaches.done_le (h : l.Reaches e e') : e.done ≤ e'.done := by
  induction h with
  | start => exact le_rfl
  | step _ hs ih => exact ih.trans (step_of_eq_some hs).done_le
  | stop _ ih => exact ih

/-- Where the loop is within a batch of what is published, at each phase: the
forms it is still to hand on count as well, and so does the one that tops up
a short batch. -/
def Near (l : Loop σ) (e : Engine σ) : Prop :=
  match e.phase with
  | .ready | .closing | .ended => e.done = e.progress.count
  | .asked requested => e.done = e.progress.count ∧ requested ≤ l.batchSize
  | .handing forms short => e.done + forms.length + short.toNat ≤ e.progress.count + l.batchSize
  | .boundary | .publishing _ => e.done ≤ e.progress.count + l.batchSize
  | .aligning _ => False

theorem requested_le (l : Loop σ) (n : Nat) : l.requested n ≤ l.batchSize := by
  unfold requested
  split <;> omega

theorem Near.step (h : l.Near e) (hbatch : 0 < l.batchSize)
    (hnever : ∀ s n published step, (l.listener.boundary s n published).2 ≠ .alignTo step)
    (hs : l.Step e e') : l.Near e' := by
  unfold Near at h
  cases hs with
  | stops hp | fills hp =>
    rw [hp] at h
    simp only [Near]
    omega
  | asks hp =>
    rw [hp] at h
    exact ⟨h, l.requested_le e.done⟩
  | @takes requested forms _ hp _ _ hforms =>
    rw [hp] at h
    have hlength := length_add_short_le hforms
    simp only [Near]
    omega
  | refuses hp =>
    rw [hp] at h
    simp only [Near, Loop.square, deliver]
    omega
  | hands hp =>
    rw [hp] at h
    simp only [Near, deliver]
    simp only [List.length_cons] at h
    omega
  | drops hp =>
    rw [hp] at h
    simp only [Near, List.length_nil]
    simp only [List.length_cons] at h
    omega
  | topsUp hp =>
    rw [hp] at h
    simp only [List.length_nil, Bool.toNat_true] at h
    simp only [Near, Loop.square, deliver]
    omega
  | finishes hp =>
    rw [hp] at h
    simp only [List.length_nil] at h
    simp only [Near]
    omega
  | consults hp hanswer hphase =>
    rw [hp] at h
    rcases hphase with ⟨-, -, rfl⟩ | ⟨step, rfl, -, -⟩ | ⟨-, -, rfl⟩
    · exact h
    · exact absurd hanswer (hnever _ _ _ step)
    · exact h
  | aligns hp | announces hp | settles hp =>
    rw [hp] at h
    exact h.elim
  | @publishes last hp => cases last <;> rfl
  | closes hp =>
    rw [hp] at h
    exact h

/-- **The loop is a batch ahead at most** of what it has published, if the
listener never asks for a multiple. -/
theorem Reaches.done_le_add (h : l.Reaches e₀ e) (hbatch : 0 < l.batchSize)
    (hnever : ∀ s n published step, (l.listener.boundary s n published).2 ≠ .alignTo step)
    (h₀ : l.Near e₀) : e.done ≤ e.progress.count + l.batchSize := by
  have hnear : l.Near e := by
    induction h with
    | start => exact h₀
    | step _ hs ih => exact ih.step hbatch hnever (step_of_eq_some hs)
    | stop _ ih => exact ih
  unfold Near at hnear
  split at hnear
  all_goals first | omega | exact hnear.elim

end Loop

/-! ## Runs that are started -/

/-- The forms that a run hands over: what it is given, as it is, and then what
the squarings of its reduced form lead to. -/
def Form.along (d : Discriminant) (x : Form) : Nat → Form
  | 0 => x
  | n + 1 => squareTimes d (n + 1) x.reduced

/-- They represent the powers that squaring leads to. -/
theorem Form.Represents.along {d : Discriminant} {x : Form} {c : FormClass d}
    (hx : Represents d x c) (n : Nat) : Represents d (x.along d n) (c ^ 2 ^ n) := by
  cases n with
  | zero => simpa [Form.along] using hx
  | succ n => exact hx.reduced.squareTimes (n + 1)

/-- A primitive form is squared to them itself, reduced or not. -/
theorem Form.Represents.along_eq {d : Discriminant} {x : Form} {c : FormClass d}
    (hx : Represents d x c) (n : Nat) : x.along d n = x.squareTimes d n := by
  cases n with
  | zero => rfl
  | succ n =>
    have hsquare : x.reduced.square d = x.square d :=
      eq_of_represents hx.reduced.square hx.square hx.reduced.duplicate.isReduced_reduced
        hx.duplicate.isReduced_reduced
    rw [Form.along, Form.squareTimes, Form.squareTimes, hsquare]

/-- A form that is reduced already is squared to them as it is. -/
theorem Form.Definite.along_reduced {d : Discriminant} {x : Form} (hx : x.Definite d.value)
    (n : Nat) : x.reduced.along d n = x.reduced.squareTimes d n := by
  cases n with
  | zero => rfl
  | succ n => rw [Form.along, hx.reduced_reduced d.value_neg]

/-- **A prover looks at a run in order**: it begins at some moment, and each
moment after it is one that the run comes to from there. It may look at its
checkpoints in any order. -/
structure Look.InOrder (l : Loop σ) (e₀ : Engine σ) (k : Look σ) : Prop where
  opened : l.Reaches e₀ k.opened
  ended : l.Reaches k.opened k.ended
  checked : l.Reaches k.ended k.checked
  taken : ∀ i, l.Reaches k.checked (k.taken i)
  seen : ∀ i, l.Reaches (k.taken i) (k.seen i)

/-- Looking at one moment is in order. -/
theorem Look.inOrder_at {l : Loop σ} {e₀ e : Engine σ} (h : l.Reaches e₀ e) :
    (Look.at e).InOrder l e₀ :=
  ⟨h, .start, .start, fun _ => .start, fun _ => .start⟩

namespace Run

variable {o : Overflow}
variable {s : Settings} {d : Discriminant} {x : Form} {listener : Listener σ} {listening : σ}
variable {accelerator : Accelerator} {bound : Option Nat} {r : Run σ} {e : Engine σ}
variable {Asks : Nat → Nat → Prop} {P : σ → Nat → Prop}

/-- What a run starts with. -/
theorem start_eq_ok_iff :
    start o s d x listener listening accelerator bound = .ok r ↔
      s.Valid o ∧ r =
        { settings := s, x := x.reduced
          loop := { discriminant := d, listener, accelerator, batchSize := s.batchSize, bound }
          engine := Loop.start x.reduced listening false } := by
  simp only [start, bind_eq_ok_iff, pure_eq_ok_iff, ← Settings.validate_eq_ok_iff]
  exact ⟨fun ⟨_, hvalid, h⟩ => ⟨hvalid, h.symm⟩, fun ⟨hvalid, h⟩ => ⟨(), hvalid, h.symm⟩⟩

/-- What a listener keeps holds at every moment of a run, and so does what is
asked for. -/
theorem heard (h : start o s d x listener listening accelerator bound = .ok r)
    (hx : x.Definite d.value) (hk : listener.Keeps (x.along d) Asks P)
    (hh : r.loop.Honest r.engine) (h₀ : P listening 0) (he : r.loop.Reaches r.engine e) :
    Loop.Heard Asks P e := by
  obtain ⟨-, rfl⟩ := start_eq_ok_iff.1 h
  have hform : (Loop.start x.reduced listening false).form = x.reduced :=
    hx.reduced_reduced d.value_neg
  exact he.heard hk hh ⟨hform, fun forms short hp => by cases hp⟩ (fun n => rfl)
    ⟨h₀, fun step hp => by cases hp⟩

/-- **What a listener keeps holds at every moment of a run**, if it holds at
the start and the fast path is honest. -/
theorem keeps (h : start o s d x listener listening accelerator bound = .ok r)
    (hx : x.Definite d.value) (hk : listener.Keeps (x.along d) Asks P)
    (hh : r.loop.Honest r.engine) (h₀ : P listening 0) (he : r.loop.Reaches r.engine e) :
    P e.listening e.done := (heard h hx hk hh h₀ he).keeps

/-- **What it keeps whatever is delivered holds of any run**, honest or not. -/
theorem keeps_of_forall (h : start o s d x listener listening accelerator bound = .ok r)
    (hk : ∀ history, listener.Keeps history Asks P) (h₀ : P listening 0)
    (he : r.loop.Reaches r.engine e) : P e.listening e.done := by
  obtain ⟨-, rfl⟩ := start_eq_ok_iff.1 h
  exact (he.heard_of_forall hk ⟨h₀, fun step hp => by cases hp⟩).keeps

/-- A run comes to its end, or to where it waits for an answer. -/
theorem reaches_finish (r : Run σ) : r.loop.Reaches r.engine r.finish.engine :=
  r.loop.reaches_advance _ _ r.engine

/-- It does so from wherever it has published so many. -/
theorem reaches_finish_of_runTo (r : Run σ) (target : Nat) :
    r.loop.Reaches (r.loop.runTo target r.engine) r.finish.engine :=
  r.loop.reaches_run_of_runTo target r.engine

/-- Attending to a run lets it go on, or leaves it. -/
theorem reaches_attend (r : Run σ) : r.loop.Reaches r.engine r.attend.engine := by
  unfold attend
  split
  · exact .start
  · exact r.reaches_finish

/-- Going on changes nothing but the state of the loop. -/
theorem with_finish_engine (r : Run σ) : { r with engine := r.finish.engine } = r.finish := rfl

/-- Every state of a run from a definite form is sound. -/
theorem sound (h : start o s d x listener listening accelerator bound = .ok r)
    (hx : x.Definite d.value) (he : r.loop.Reaches r.engine e) : r.loop.Sound e := by
  obtain ⟨-, rfl⟩ := start_eq_ok_iff.1 h
  exact he.sound (Loop.sound_start (hx.reduced d.value_neg) listening false)

/-- **A run is a batch ahead at most** of what it has published, if its
listener never asks for a multiple. -/
theorem done_le_add (h : start o s d x listener listening accelerator bound = .ok r)
    (hnever : ∀ t n published step, (listener.boundary t n published).2 ≠ .alignTo step)
    (he : r.loop.Reaches r.engine e) : e.done ≤ e.progress.count + s.batchSize := by
  obtain ⟨hvalid, rfl⟩ := start_eq_ok_iff.1 h
  exact he.done_le_add hvalid.batchSize_pos hnever rfl

end Run

end VerifiableDelay
