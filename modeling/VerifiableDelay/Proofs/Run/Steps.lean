import VerifiableDelay.Run.Engine
import VerifiableDelay.Proofs.Form.Composition
/-!
# The steps of the squaring loop

What a step can do is said once, as one constructor for each way it can go
(`Loop.Step`). From it follows what every state of a run satisfies, however
the fast path answers, whatever the listener wants and whenever the stop
flag is raised: **the loop is sound** (`Loop.Sound`). Its form is reduced
and of the discriminant, its count is that of the fast and the slow
squarings and within the bound, and what is published is never ahead.
-/

namespace VerifiableDelay

open Form

namespace Loop

variable {σ : Type} {l : Loop σ} {e e' e₀ e₁ : Engine σ} {f : Form}

/-- The states that a run comes to: it takes its steps, and its stop flag is
raised at any moment between two of them. -/
inductive Reaches (l : Loop σ) (e₀ : Engine σ) : Engine σ → Prop where
  | start : Reaches l e₀ e₀
  | step {e e' : Engine σ} (h : Reaches l e₀ e) (hs : l.step? e = some e') : Reaches l e₀ e'
  | stop {e : Engine σ} (h : Reaches l e₀ e) : Reaches l e₀ e.stop

theorem Reaches.trans (h : l.Reaches e₀ e) (h' : l.Reaches e e') : l.Reaches e₀ e' := by
  induction h' with
  | start => exact h
  | step _ hs ih => exact ih.step hs
  | stop _ ih => exact ih.stop

/-- The steps that are taken until it is enough are steps of the run. -/
theorem reaches_advance (l : Loop σ) (enough : Engine σ → Bool) (fuel : Nat) (e : Engine σ) :
    l.Reaches e (l.advance enough fuel e) := by
  induction fuel generalizing e with
  | zero => exact .start
  | succ fuel ih =>
    rw [advance]
    split
    · exact .start
    · split
      · exact .start
      · rename_i e' hs
        exact (Reaches.start.step hs).trans (ih e')

theorem reaches_runTo (l : Loop σ) (target : Nat) (e : Engine σ) : l.Reaches e (l.runTo target e) :=
  l.reaches_advance _ _ e

/-- Without stopping short the same steps lead on from there. -/
theorem reaches_advance_of_advance (l : Loop σ) (enough : Engine σ → Bool) (fuel : Nat)
    (e : Engine σ) : l.Reaches (l.advance enough fuel e) (l.advance (fun _ => false) fuel e) := by
  induction fuel generalizing e with
  | zero => exact .start
  | succ fuel ih =>
    by_cases henough : enough e = true
    · rw [advance, if_pos henough]
      exact l.reaches_advance _ _ e
    · simp only [advance, if_neg henough, Bool.false_eq_true, if_false]
      split
      · exact .start
      · exact ih _

/-- So a run comes to its end from where it has published so many. -/
theorem reaches_run_of_runTo (l : Loop σ) (target : Nat) (e : Engine σ) :
    l.Reaches (l.runTo target e) (l.run e) :=
  l.reaches_advance_of_advance _ _ e

/-- **The ways a step can go.** -/
inductive Step (l : Loop σ) (e : Engine σ) : Engine σ → Prop where
  | stops (hp : e.phase = .ready) (hs : e.stopRaised = true) :
    Step l e { e with stopped := true, phase := .publishing true }
  | fills (hp : e.phase = .ready) (hroom : l.hasRoom e.done = false) :
    Step l e { e with phase := .publishing true }
  | asks (hp : e.phase = .ready) (hs : e.stopRaised = false) (hroom : l.hasRoom e.done = true) :
    Step l e { e with phase := .asked (l.requested e.done) }
  | takes {requested : Nat} {forms : List Form} {reply : Reply} (hp : e.phase = .asked requested)
      (hreply : l.accelerator e.attempts e.form e.done requested = some reply)
      (houtcome : reply.outcome = .completed forms) (hforms : l.accepts forms requested = true) :
    Step l e { e with attempts := e.attempts + 1, stopRaised := e.stopRaised || reply.stop
                      fastBatches := e.fastBatches + 1
                      phase := .handing forms (forms.length < requested) }
  | refuses {requested corrupted : Nat} {reply : Reply} (hp : e.phase = .asked requested)
      (hreply : l.accelerator e.attempts e.form e.done requested = some reply)
      (houtcome : reply.outcome = .unavailable ∧ corrupted = e.corruptedBatches ∨
        corrupted = e.corruptedBatches + 1 ∧ (reply.outcome = .corrupted ∨
          ∃ forms, reply.outcome = .completed forms ∧ l.accepts forms requested = false)) :
    Step l e (l.square { e with attempts := e.attempts + 1, phase := .boundary
                                stopRaised := e.stopRaised || reply.stop
                                corruptedBatches := corrupted })
  | hands {f : Form} {rest : List Form} {short : Bool} (hp : e.phase = .handing (f :: rest) short)
      (hs : e.stopRaised = false) :
    Step l e (l.deliver { e with fastIterations := e.fastIterations + 1
                                 phase := .handing rest short } f)
  | drops {f : Form} {rest : List Form} {short : Bool} (hp : e.phase = .handing (f :: rest) short)
      (hs : e.stopRaised = true) :
    Step l e { e with phase := .handing [] short }
  | topsUp (hp : e.phase = .handing [] true) (hs : e.stopRaised = false)
      (hroom : l.hasRoom e.done = true) : Step l e (l.square { e with phase := .boundary })
  | finishes {short : Bool} (hp : e.phase = .handing [] short)
      (hdone : short = false ∨ l.hasRoom e.done = false ∨ e.stopRaised = true) :
    Step l e { e with phase := .boundary }
  | consults {halted : Bool} {phase : Phase} {answer : Boundary} (hp : e.phase = .boundary)
      (hanswer : (l.listener.boundary e.listening e.done e.progress.count).2 = answer)
      (hphase : answer = .proceed ∧ halted = e.halted ∧ phase = .publishing false ∨
        (∃ step, answer = .alignTo step ∧ halted = e.halted ∧ phase = .aligning step) ∨
        answer = .halt ∧ halted = true ∧ phase = .publishing true) :
    Step l e { e with listening := (l.listener.boundary e.listening e.done e.progress.count).1
                      stopRaised := e.stopRaised || l.listener.stops
                        (l.listener.boundary e.listening e.done e.progress.count).1
                      halted, phase }
  | aligns {step : Nat} (hp : e.phase = .aligning step) (hs : e.stopRaised = false)
      (hroom : l.hasRoom e.done = true) (hstep : step ≠ 0) (hmultiple : e.done % step ≠ 0) :
    Step l e (l.square e)
  | announces {step : Nat} (hp : e.phase = .aligning step) (hstep : step ≠ 0)
      (hmultiple : e.done % step = 0) :
    Step l e (l.announce { e with phase := .publishing false })
  | settles {step : Nat} (hp : e.phase = .aligning step)
      (hdone : step = 0 ∨ l.hasRoom e.done = false ∨ e.stopRaised = true) :
    Step l e { e with phase := .publishing false }
  | publishes {last : Bool} (hp : e.phase = .publishing last) :
    Step l e { e with progress := e.progress.publish e.done
                      phase := if last then .closing else .ready }
  | closes (hp : e.phase = .closing) :
    Step l e { e with progress := e.progress.close, phase := .ended }

/-- Taking an answer goes one of two ways. -/
theorem step_receive {requested : Nat} {reply : Reply} (hp : e.phase = .asked requested)
    (hreply : l.accelerator e.attempts e.form e.done requested = some reply) :
    l.Step e (l.receive e requested reply) := by
  rw [receive]
  cases houtcome : reply.outcome with
  | unavailable => exact .refuses hp hreply (.inl ⟨houtcome, rfl⟩)
  | corrupted => exact .refuses hp hreply (.inr ⟨rfl, .inl houtcome⟩)
  | completed forms =>
    simp only
    by_cases hforms : l.accepts forms requested = true
    · rw [if_pos hforms]
      exact .takes hp hreply houtcome hforms
    · rw [if_neg hforms]
      exact .refuses hp hreply (.inr ⟨rfl, .inr ⟨forms, houtcome, by simpa using hforms⟩⟩)

/-- The listener's answer is one of three. -/
theorem step_consult (hp : e.phase = .boundary) : l.Step e (l.consult e) := by
  rw [consult]
  cases hanswer : (l.listener.boundary e.listening e.done e.progress.count).2 with
  | proceed =>
    simp only [hanswer]
    exact .consults hp hanswer (.inl ⟨rfl, rfl, rfl⟩)
  | alignTo step =>
    simp only [hanswer]
    exact .consults hp hanswer (.inr (.inl ⟨step, rfl, rfl, rfl⟩))
  | halt =>
    simp only [hanswer]
    exact .consults hp hanswer (.inr (.inr ⟨rfl, rfl, rfl⟩))

/-- The flag is looked at first, then the bound. -/
theorem step_ready (hp : e.phase = .ready) (h : l.step? e = some e') : l.Step e e' := by
  simp only [step?, hp] at h
  by_cases hs : e.stopRaised = true
  · rw [if_pos hs] at h
    cases h
    exact .stops hp hs
  rw [if_neg hs] at h
  by_cases hroom : l.hasRoom e.done = true
  · rw [if_pos hroom] at h
    cases h
    exact .asks hp (by simpa using hs) hroom
  · rw [if_neg hroom] at h
    cases h
    exact .fills hp (by simpa using hroom)

/-- Forms are handed on until the flag is raised, and a short batch is topped
up. -/
theorem step_handing {forms : List Form} {short : Bool} (hp : e.phase = .handing forms short)
    (h : l.step? e = some e') : l.Step e e' := by
  cases forms with
  | nil =>
    simp only [step?, hp] at h
    by_cases hmore : (short && l.hasRoom e.done && !e.stopRaised) = true
    · rw [if_pos hmore] at h
      cases h
      simp only [Bool.and_eq_true, Bool.not_eq_true'] at hmore
      obtain ⟨⟨rfl, hroom⟩, hs⟩ := hmore
      exact .topsUp hp hs hroom
    · rw [if_neg hmore] at h
      cases h
      simp only [Bool.not_eq_true, Bool.and_eq_false_iff, Bool.not_eq_false', or_assoc] at hmore
      exact .finishes hp hmore
  | cons f rest =>
    simp only [step?, hp] at h
    by_cases hs : e.stopRaised = true
    · rw [if_pos hs] at h
      cases h
      exact .drops hp hs
    · rw [if_neg hs] at h
      cases h
      exact .hands hp (by simpa using hs)

/-- Squarings are made until the multiple is reached, as far as there is
room. -/
theorem step_aligning {step : Nat} (hp : e.phase = .aligning step) (h : l.step? e = some e') :
    l.Step e e' := by
  simp only [step?, hp] at h
  by_cases hzero : step = 0
  · rw [if_pos hzero] at h
    cases h
    exact .settles hp (.inl hzero)
  rw [if_neg hzero] at h
  by_cases hmultiple : e.done % step = 0
  · rw [if_pos hmultiple] at h
    cases h
    exact .announces hp hzero hmultiple
  rw [if_neg hmultiple] at h
  by_cases hmore : (l.hasRoom e.done && !e.stopRaised) = true
  · rw [if_pos hmore] at h
    cases h
    simp only [Bool.and_eq_true, Bool.not_eq_true'] at hmore
    exact .aligns hp hmore.2 hmore.1 hzero hmultiple
  · rw [if_neg hmore] at h
    cases h
    simp only [Bool.not_eq_true, Bool.and_eq_false_iff, Bool.not_eq_false'] at hmore
    exact .settles hp (.inr hmore)

/-- **Every step goes one of these ways.** -/
theorem step_of_eq_some (h : l.step? e = some e') : l.Step e e' := by
  cases hp : e.phase with
  | ready => exact step_ready hp h
  | asked requested =>
    simp only [step?, hp, Option.map_eq_some_iff] at h
    obtain ⟨reply, hreply, rfl⟩ := h
    exact step_receive hp hreply
  | handing forms short => exact step_handing hp h
  | boundary =>
    simp only [step?, hp, Option.some.injEq] at h
    subst h
    exact step_consult hp
  | aligning step => exact step_aligning hp h
  | publishing last =>
    simp only [step?, hp, Option.some.injEq] at h
    subst h
    exact .publishes hp
  | closing =>
    simp only [step?, hp, Option.some.injEq] at h
    subst h
    exact .closes hp
  | ended => simp only [step?, hp, reduceCtorEq] at h

/-! ## What every state satisfies -/

/-- Reduced, and a definite form of the loop's discriminant. -/
def Fits (l : Loop σ) (f : Form) : Prop :=
  f.isReduced = true ∧ f.Definite l.discriminant.value

/-- No more squarings than the bound. -/
def Within (l : Loop σ) (n : Nat) : Prop := ∀ bound, l.bound = some bound → n ≤ bound

/-- The reasons for a run to end. -/
def Over (l : Loop σ) (e : Engine σ) : Prop :=
  e.halted = true ∨ e.stopped = true ∨ l.bound = some e.done

/-- What each phase relies on: a batch asked for is one that there is room
for, the forms of a batch being handed on are as they should be and fit
within the bound, and nothing ends without a reason. -/
def Expected (l : Loop σ) (e : Engine σ) : Prop :=
  match e.phase with
  | .asked requested => requested = l.requested e.done ∧ l.hasRoom e.done = true
  | .handing forms _ => (∀ f ∈ forms, l.Fits f) ∧ l.Within (e.done + forms.length)
  | .publishing last => last = true → l.Over e
  | .closing => l.Over e ∧ e.progress.count = e.done
  | .ended => l.Over e ∧ e.progress = ⟨e.done, true⟩
  | _ => True

/-- **What every state of a run satisfies.** -/
structure Sound (l : Loop σ) (e : Engine σ) : Prop where
  fits : l.Fits e.form
  done_eq : e.done = e.fastIterations + e.slowIterations
  within : l.Within e.done
  published : e.progress.count ≤ e.done
  expected : l.Expected e

theorem Fits.square (hf : l.Fits f) : l.Fits (f.square l.discriminant) :=
  ⟨hf.2.duplicate.isReduced_reduced l.discriminant.value_neg, hf.2.square⟩

/-- What the check of a batch is for. -/
theorem fits_of_accepts {forms : List Form} {requested : Nat}
    (h : l.accepts forms requested = true) :
    forms ≠ [] ∧ forms.length ≤ requested ∧ ∀ f ∈ forms, l.Fits f := by
  simp only [accepts, Bool.and_eq_true, Bool.not_eq_true', List.isEmpty_eq_false_iff,
    decide_eq_true_eq, List.all_eq_true, beq_iff_eq] at h
  obtain ⟨⟨hne, hlen⟩, hall⟩ := h
  refine ⟨hne, hlen, fun f hf => ?_⟩
  obtain ⟨hr, hd⟩ := hall f hf
  exact ⟨hr, definite_of_isReduced l.discriminant.value_neg hr hd⟩

/-- With the form that tops it up a short batch is no longer than was asked for. -/
theorem length_add_short_le {forms : List Form} {requested : Nat}
    (h : l.accepts forms requested = true) :
    forms.length + (decide (forms.length < requested)).toNat ≤ requested := by
  obtain ⟨-, hlength, -⟩ := fits_of_accepts h
  by_cases hshort : forms.length < requested
  · rw [decide_eq_true hshort, Bool.toNat_true]
    exact hshort
  · rw [decide_eq_false hshort, Bool.toNat_false]
    exact hlength

/-- There is room for one more squaring if that stays within the bound. -/
theorem hasRoom_iff {n : Nat} : l.hasRoom n = true ↔ l.Within (n + 1) := by
  cases hb : l.bound with
  | none => simp [hasRoom, Within, hb]
  | some bound =>
    simp only [hasRoom, Within, hb, decide_eq_true_eq, Option.some.injEq, forall_eq']
    exact Nat.lt_iff_add_one_le

/-- A batch no longer than asked for stays within the bound. -/
theorem within_add_of_le_requested {n k : Nat} (h : l.Within n) (hk : k ≤ l.requested n) :
    l.Within (n + k) := by
  intro bound hb
  have hn := h bound hb
  simp only [requested, hb] at hk
  omega

/-- Where there is no room left the bound is reached. -/
theorem bound_eq_of_hasRoom {n : Nat} (h : l.Within n) (hroom : l.hasRoom n = false) :
    l.bound = some n := by
  cases hb : l.bound with
  | none => simp [hasRoom, hb] at hroom
  | some bound =>
    have hn := h bound hb
    simp only [hasRoom, hb, decide_eq_false_iff_not] at hroom
    rw [Option.some.injEq]
    omega

/-- A run starts so. -/
theorem sound_start {x : Form} (hx : x.Definite l.discriminant.value) (listening : σ)
    (raised : Bool) : l.Sound (start x listening raised) where
  fits := ⟨hx.isReduced_reduced l.discriminant.value_neg, hx.reduced l.discriminant.value_neg⟩
  done_eq := rfl
  within _ _ := Nat.zero_le _
  published := Nat.zero_le _
  expected := trivial

/-- Raising the flag changes nothing of this. -/
theorem Sound.stop (h : l.Sound e) : l.Sound e.stop := { h with }

/-- Nor does a squaring of the loop's own. -/
theorem Sound.square (h : l.Sound e) (hroom : l.hasRoom e.done = true)
    (hphase : l.Expected (l.square e)) : l.Sound (l.square e) where
  fits := h.fits.square
  done_eq := by
    have hdone := h.done_eq
    simp only [Loop.square, deliver]
    omega
  within := hasRoom_iff.1 hroom
  published := Nat.le_succ_of_le h.published
  expected := hphase

/-- **What a step keeps.** -/
theorem Sound.step (h : l.Sound e) (hs : l.Step e e') : l.Sound e' := by
  have hphase := h.expected
  rw [Expected] at hphase
  cases hs with
  | stops hp _ => exact { h with expected := fun _ => .inr (.inl rfl) }
  | fills hp hroom =>
    exact { h with expected := fun _ => .inr (.inr (bound_eq_of_hasRoom h.within hroom)) }
  | asks hp _ hroom => exact { h with expected := ⟨rfl, hroom⟩ }
  | takes hp _ _ hforms =>
    rw [hp] at hphase
    obtain ⟨-, hlen, hfits⟩ := fits_of_accepts hforms
    rw [hphase.1] at hlen
    exact { h with expected := ⟨hfits, within_add_of_le_requested h.within hlen⟩ }
  | refuses hp =>
    rw [hp] at hphase
    exact Sound.square { h with expected := trivial } hphase.2 trivial
  | @hands f rest _ hp _ =>
    rw [hp] at hphase
    obtain ⟨hfits, hwithin⟩ := hphase
    have hdone := h.done_eq
    refine ⟨hfits f List.mem_cons_self, ?_, ?_, Nat.le_succ_of_le h.published, ?_, ?_⟩
    · simp only [deliver]
      omega
    · intro bound hb
      have := hwithin bound hb
      simp only [deliver, List.length_cons] at this ⊢
      omega
    · exact fun g hg => hfits g (List.mem_cons_of_mem f hg)
    · intro bound hb
      have := hwithin bound hb
      simp only [deliver, List.length_cons] at this ⊢
      omega
  | drops hp _ => exact { h with expected := ⟨by simp, h.within⟩ }
  | topsUp hp _ hroom => exact Sound.square { h with expected := trivial } hroom trivial
  | finishes hp => exact { h with expected := trivial }
  | consults hp _ hphase =>
    refine { h with expected := ?_ }
    rcases hphase with ⟨-, -, rfl⟩ | ⟨step, -, -, rfl⟩ | ⟨-, rfl, rfl⟩
    · exact fun hlast => by cases hlast
    · trivial
    · exact fun _ => .inl rfl
  | aligns hp _ hroom =>
    refine h.square hroom ?_
    simp only [Expected, Loop.square, deliver, hp]
  | announces hp => exact { h with expected := fun hlast => by cases hlast }
  | settles hp => exact { h with expected := fun hlast => by cases hlast }
  | @publishes last hp =>
    rw [hp] at hphase
    refine { h with published := le_rfl, expected := ?_ }
    cases last with
    | false => trivial
    | true => exact ⟨hphase rfl, rfl⟩
  | closes hp =>
    rw [hp] at hphase
    refine { h with expected := ⟨hphase.1, ?_⟩ }
    rw [Progress.close, hphase.2]

/-- **Every state of a run is sound.** -/
theorem Reaches.sound (h : l.Reaches e₀ e) (h₀ : l.Sound e₀) : l.Sound e := by
  induction h with
  | start => exact h₀
  | step _ hs ih => exact ih.step (step_of_eq_some hs)
  | stop _ ih => exact ih.stop

/-- A step publishes no less than what is published. -/
theorem Sound.count_le_step (h : l.Sound e) (hs : l.Step e e') :
    e.progress.count ≤ e'.progress.count := by
  cases hs with
  | publishes => exact h.published
  | _ => exact le_rfl

/-- **What is published never decreases.** -/
theorem Reaches.count_le (h : l.Reaches e e') (h₀ : l.Sound e) :
    e.progress.count ≤ e'.progress.count := by
  induction h with
  | start => exact le_rfl
  | step hr hs ih => exact ih.trans ((hr.sound h₀).count_le_step (step_of_eq_some hs))
  | stop _ ih => exact ih

/-- A run is halted only by the answer at the end of a batch. -/
theorem Step.halted (hs : l.Step e e') (hhalted : e'.halted = true) :
    e.halted = true ∨ (l.listener.boundary e.listening e.done e.progress.count).2 = .halt := by
  cases hs with
  | consults _ hanswer hphase =>
    rcases hphase with ⟨-, rfl, -⟩ | ⟨step, -, rfl, -⟩ | ⟨rfl, -, -⟩
    · exact .inl hhalted
    · exact .inl hhalted
    · exact .inr hanswer
  | _ => exact .inl hhalted

/-- **A run says why it ended**: as halted only where the listener may halt
one, and as stopped only when its flag is raised. -/
structure Candid (l : Loop σ) (e : Engine σ) : Prop where
  halted : e.halted = true → ∃ s n published, (l.listener.boundary s n published).2 = .halt
  stopped : e.stopped = true → e.stopRaised = true

theorem Candid.step (h : l.Candid e) (hs : l.Step e e') : l.Candid e' := by
  refine ⟨fun he => (hs.halted he).elim h.halted fun hanswer => ⟨_, _, _, hanswer⟩, ?_⟩
  have hstopped := h.stopped
  cases hs with
  | stops hp hraised => exact fun _ => hraised
  | _ =>
    intro he
    simp only [Loop.square, deliver, announce] at he ⊢
    simp [hstopped he]

theorem Reaches.candid (h : l.Reaches e₀ e) (h₀ : l.Candid e₀) : l.Candid e := by
  induction h with
  | start => exact h₀
  | step _ hs ih => exact ih.step (step_of_eq_some hs)
  | stop _ ih => exact { ih with stopped := fun _ => rfl }

end Loop

end VerifiableDelay
