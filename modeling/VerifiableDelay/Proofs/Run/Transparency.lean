import VerifiableDelay.Proofs.Run.Record
import VerifiableDelay.Proofs.Run.Termination
/-!
# A run looks the same whichever way it goes

Whatever the fast path answers and the listener wants, and whenever the flag
is raised, what a run delivers is in order and of the right kind, what it
reports and publishes agrees with that, and it ends when it should
(`Loop.Transparent`). Where moreover the batches it takes are what they
claim to be (`Loop.Honest`), **it delivers what it would deliver without a
fast path**.
-/

namespace VerifiableDelay

open Form

namespace Loop

variable {σ : Type} {l : Loop σ} {x f : Form} {e e' e₀ : Engine σ}
variable {E E₀ : Engine (σ × List (Nat × Form))}

/-! ## Honest batches -/

/-- The forms that `f` leads to by one, two and more squarings. -/
def Successive (d : Discriminant) (f : Form) (forms : List Form) : Prop :=
  ∀ i g, forms[i]? = some g → g = squareTimes d (i + 1) f

/-- **The fast path is honest** in a run if every batch taken from it holds
successive squares of the form it was given. -/
def Honest (l : Loop σ) (e₀ : Engine σ) : Prop :=
  ∀ e requested reply forms, l.Reaches e₀ e → e.phase = .asked requested →
    l.accelerator e.attempts e.form e.done requested = some reply →
    reply.outcome = .completed forms → l.accepts forms requested = true →
    Successive l.discriminant e.form forms

/-- The form is `x` squared as often as is counted, and so are those of the
batch at hand. -/
structure Squared (l : Loop σ) (x : Form) (e : Engine σ) : Prop where
  form_eq : e.form = squareTimes l.discriminant e.done x
  batch : ∀ forms short, e.phase = .handing forms short → Successive l.discriminant e.form forms

/-- The first form of a batch is the square, and the others follow it. -/
theorem Successive.of_cons {d : Discriminant} {g : Form} {forms : List Form}
    (h : Successive d f (g :: forms)) : g = Form.square d f ∧ Successive d g forms := by
  have hg : g = Form.square d f := h 0 g rfl
  refine ⟨hg, fun i k hk => ?_⟩
  rw [hg]
  exact h (i + 1) k hk

theorem Squared.square (h : l.Squared x e)
    (hbatch : ∀ forms short, e.phase ≠ .handing forms short) : l.Squared x (l.square e) where
  form_eq := by
    simp only [Loop.square, deliver]
    rw [squareTimes_succ, ← h.form_eq]
  batch forms short hp := absurd hp (hbatch forms short)

theorem Squared.step (h : l.Squared x e) (hh : l.Honest e) (hs : l.Step e e') :
    l.Squared x e' := by
  cases hs with
  | takes hp hreply houtcome hforms =>
    refine ⟨h.form_eq, fun forms short hp' => ?_⟩
    cases hp'
    exact hh e _ _ _ .start hp hreply houtcome hforms
  | refuses hp => exact Squared.square ⟨h.form_eq, by simp⟩ (by simp)
  | @hands f rest short hp _ =>
    obtain ⟨hsquare, hrest⟩ := (h.batch _ _ hp).of_cons
    refine ⟨?_, fun forms short' hp' => ?_⟩
    · simp only [deliver]
      rw [squareTimes_succ, ← h.form_eq, hsquare]
    · cases hp'
      exact hrest
  | drops hp _ =>
    refine ⟨h.form_eq, fun forms short hp' => ?_⟩
    cases hp'
    exact fun i g hg => by simp at hg
  | topsUp hp _ => exact Squared.square ⟨h.form_eq, by simp⟩ (by simp)
  | consults hp _ hphase =>
    refine ⟨h.form_eq, fun forms short hp' => ?_⟩
    rcases hphase with ⟨-, -, rfl⟩ | ⟨step, -, -, rfl⟩ | ⟨-, -, rfl⟩ <;> cases hp'
  | aligns hp _ _ => exact h.square (by simp [hp])
  | @publishes last hp => exact ⟨h.form_eq, by cases last <;> simp⟩
  | _ => exact ⟨h.form_eq, by simp [announce]⟩

theorem Reaches.squared (h : l.Reaches e₀ e) (hh : l.Honest e₀) (h₀ : l.Squared x e₀) :
    l.Squared x e := by
  induction h with
  | start => exact h₀
  | step hr hs ih =>
    refine ih.step ?_ (step_of_eq_some hs)
    intro e requested reply forms h
    exact hh e requested reply forms (hr.trans h)
  | stop _ ih => exact ⟨ih.form_eq, ih.batch⟩

/-- The same loop without a fast path. -/
def unaided (l : Loop σ) : Loop σ := { l with accelerator := Accelerator.absent }

/-- Nothing is taken from a fast path that is not there. -/
theorem honest_unaided : l.unaided.Honest e₀ := by
  intro e requested reply forms _ _ hreply houtcome _
  cases hreply
  cases houtcome

/-- A record does not make a fast path less honest. -/
theorem Honest.recorded (hh : l.Honest E₀.forget) : l.recorded.Honest E₀ := by
  intro E requested reply forms hE
  exact hh E.forget requested reply forms ((reaches_iff_exists_recorded E₀).2 ⟨E, hE, rfl⟩)

/-- **What an honest run delivers**: the start squared once, twice, and so
on. -/
theorem Reaches.record_eq (h : l.recorded.Reaches E₀ E) (hh : l.Honest E₀.forget)
    (h₀ : E₀.record = []) (hdone : E₀.done = 0) (hphase : E₀.phase = .ready) :
    ∀ p ∈ E.record, p.2 = squareTimes l.discriminant p.1 E₀.form := by
  intro p hp
  obtain ⟨E', hE', rfl⟩ := h.recorded h₀ p hp
  refine (hE'.squared hh.recorded ⟨?_, ?_⟩).form_eq
  · rw [hdone, squareTimes]
  · simp [hphase]

/-! ## Transparency -/

/-- **What can be seen of a run** from `x`, at any moment of it. -/
structure Transparent (l : Loop σ) (x : Form) (E : Engine (σ × List (Nat × Form))) : Prop where
  /-- The forms are numbered from one, without a gap or a repetition. -/
  indices : E.record.map Prod.fst = List.range' 1 E.record.length
  fits : ∀ p ∈ E.record, p.2.isReduced = true ∧ p.2.discriminant = l.discriminant.value
  within : ∀ bound, l.bound = some bound → E.record.length ≤ bound
  iterations : E.report.iterations = E.record.length
  fast_add_slow : E.report.fastIterations + E.report.slowIterations = E.record.length
  /-- The last form delivered, or what `x` reduces to. -/
  y : E.report.y = (E.record.map Prod.snd).getLastD x.reduced
  published : E.progress.count ≤ E.record.length
  monotone : ∀ E', l.recorded.Reaches E E' → E.progress.count ≤ E'.progress.count
  closed : E.phase = .ended → E.progress = ⟨E.record.length, true⟩
  complete : E.phase = .ended → E.report.halted = false → E.report.stopped = false →
    l.bound = some E.record.length
  halted : E.report.halted = true →
    ∃ s n published, (l.listener.boundary s n published).2 = .halt
  stopped : E.report.stopped = true → E.stopRaised = true
  /-- Nothing but a fast path that does not answer keeps it from its end,
  once it has a bound or its flag is raised. -/
  ends : l.Answers → l.bound.isSome = true ∨ E.stopRaised = true →
    (l.recorded.run E).phase = .ended

/-- Every state that a run comes to is seen so. -/
theorem Reaches.transparent (hx : x.Definite l.discriminant.value) {s : σ} {raised : Bool}
    (h : l.recorded.Reaches (Loop.start x (s, []) raised) E) : l.Transparent x E := by
  have hx' : x.Definite l.recorded.discriminant.value := hx
  have hstart : l.recorded.Sound (Loop.start x (s, []) raised) := sound_start hx' (s, []) raised
  have hsound : l.recorded.Sound E := h.sound hstart
  have hcandid : l.recorded.Candid E := by
    refine h.candid ⟨?_, ?_⟩ <;> intro he <;> cases he
  have hdelivered : Delivered (Loop.start x (s, []) raised) E := h.delivered ⟨rfl, rfl⟩
  have hlength : E.record.length = E.done := by
    have hmap := congrArg List.length hdelivered.indices
    rwa [List.length_map, List.length_range'] at hmap
  have hended : E.phase = .ended → l.recorded.Over E ∧ E.progress = ⟨E.done, true⟩ := by
    intro hp
    have hexpected := hsound.expected
    rwa [Expected, hp] at hexpected
  refine ⟨?_, ?_, ?_, hlength.symm, ?_, hdelivered.last.symm, ?_, ?_, ?_, ?_, ?_, ?_, ?_⟩
  · rw [hlength, hdelivered.indices]
  · intro p hp
    obtain ⟨E', hE', rfl⟩ := h.recorded rfl p hp
    obtain ⟨hr, hd⟩ := (hE'.sound hstart).fits
    exact ⟨hr, hd.discriminant_eq⟩
  · rw [hlength]
    exact hsound.within
  · rw [hlength, hsound.done_eq]
    rfl
  · rw [hlength]
    exact hsound.published
  · exact fun E' hE' => hE'.count_le hsound
  · intro hp
    rw [hlength]
    exact (hended hp).2
  · intro hp hhalted hstopped
    rw [hlength]
    rcases (hended hp).1 with hh | hs | hb
    · exact absurd (hh.symm.trans hhalted) (by decide)
    · exact absurd (hs.symm.trans hstopped) (by decide)
    · exact hb
  · intro hh
    obtain ⟨t, n, published, hanswer⟩ := hcandid.halted hh
    exact ⟨t.1, n, published, hanswer⟩
  · exact hcandid.stopped
  · intro ha hends
    exact Answers.run_ended ha hsound hends

/-- **Runs are transparent.** From a definite form, whatever is the fast
path, the bound, the batch size and the listener, and whenever the flag is
raised: keeping what is delivered changes nothing, and every state of the
run is as it should be seen. If the fast path is honest then what is
delivered are the successive squares of the reduced start, so that two runs,
one of them without a fast path, do not differ in any form that they both
come to. -/
theorem run_transparent (l : Loop σ) (hx : x.Definite l.discriminant.value) (s : σ)
    (raised : Bool) :
    (∀ e, l.Reaches (start x s raised) e ↔
      ∃ E, l.recorded.Reaches (start x (s, []) raised) E ∧ E.forget = e) ∧
    (∀ E, l.recorded.Reaches (start x (s, []) raised) E → l.Transparent x E) ∧
    (l.Honest (start x s raised) →
      ∀ E, l.recorded.Reaches (start x (s, []) raised) E →
        (∀ p ∈ E.record, p.2 = squareTimes l.discriminant p.1 x.reduced) ∧
        ∀ E', l.unaided.recorded.Reaches (start x (s, []) raised) E' →
          ∀ (i : Nat) p p', E.record[i]? = some p → E'.record[i]? = some p' → p = p') := by
  refine ⟨fun e => reaches_iff_exists_recorded (start x (s, []) raised),
    fun E hE => hE.transparent hx, ?_⟩
  intro hh E hE
  have hform := hE.record_eq hh rfl rfl rfl
  refine ⟨hform, fun E' hE' i p p' hp hp' => ?_⟩
  have hform' := hE'.record_eq honest_unaided rfl rfl rfl
  have hi : p.1 = i + 1 := (hE.delivered ⟨rfl, rfl⟩).fst_eq hp
  have hi' : p'.1 = i + 1 := (hE'.delivered ⟨rfl, rfl⟩).fst_eq hp'
  have hsnd := hform p (List.mem_of_getElem? hp)
  have hsnd' := hform' p' (List.mem_of_getElem? hp')
  refine Prod.ext (hi.trans hi'.symm) ?_
  rw [hsnd, hsnd', hi, hi']
  rfl

/-- The discriminant `-71`. -/
def discriminant71 : Discriminant :=
  { value := -71, value_neg := by decide, value_mod := by decide }

/-- Seven squarings of forms of that discriminant, with a fast path that is
short, then corrupted, then absent, and a listener that aligns to threes. -/
def loop71 : Loop Unit where
  discriminant := discriminant71
  listener :=
    { deliver := fun _ _ _ => ()
      boundary := fun _ _ _ => ((), .alignTo 3) }
  accelerator attempt f _ requested :=
    if attempt % 3 = 0 then
      some { outcome := .completed ((List.range (min requested 2)).map fun i =>
        squareTimes discriminant71 (i + 1) f) }
    else if attempt % 3 = 1 then some { outcome := .corrupted }
    else some { outcome := .unavailable }
  batchSize := 4
  bound := some 7

/-- Its run from a form that is not reduced ends after seven squarings, and
each form delivered is the square that it should be. -/
theorem run_transparent_71 :
    isReduced ⟨2, 5, 12⟩ = false ∧
      ∃ E, loop71.recorded.run (start ⟨2, 5, 12⟩ ((), []) false) = E ∧ E.phase = .ended ∧
        E.progress = ⟨7, true⟩ ∧ E.report.fastIterations + E.report.slowIterations = 7 ∧
        E.record.map Prod.fst = List.range' 1 7 ∧
        ∀ p ∈ E.record, p.2 = squareTimes loop71.discriminant p.1 (reduced ⟨2, 5, 12⟩) := by
  have hx : (⟨2, 5, 12⟩ : Form).Definite loop71.discriminant.value := ⟨by decide, by decide⟩
  obtain ⟨-, hseen, hhonest⟩ := run_transparent loop71 hx () false
  have hh : loop71.Honest (start ⟨2, 5, 12⟩ () false) := by
    intro e requested reply forms _ _ hreply houtcome _ i g hg
    simp only [loop71] at hreply
    split at hreply
    · cases hreply
      cases houtcome
      rw [List.getElem?_map, Option.map_eq_some_iff] at hg
      obtain ⟨j, hj, rfl⟩ := hg
      obtain ⟨_, rfl⟩ := List.getElem?_eq_some_iff.1 hj
      rw [List.getElem_range]
      rfl
    · split at hreply <;> cases hreply <;> cases houtcome
  have ha : loop71.Answers := by
    intro attempt f done requested
    simp only [loop71]
    repeat' split
    all_goals rfl
  have hstart := hseen _ .start
  have hended := hstart.ends ha (.inl rfl)
  have hreach := loop71.recorded.reaches_advance (fun _ => false) loop71.recorded.fuel
    (start ⟨2, 5, 12⟩ ((), []) false)
  have hrun := hseen _ hreach
  have hlength : (loop71.recorded.run (start ⟨2, 5, 12⟩ ((), []) false)).record.length = 7 := by
    decide +kernel
  refine ⟨by decide, _, rfl, hended, ?_, ?_, ?_, (hhonest hh _ hreach).1⟩
  · rw [← hlength]
    exact hrun.closed hended
  · rw [← hlength]
    exact hrun.fast_add_slow
  · rw [← hlength]
    exact hrun.indices

end Loop

end VerifiableDelay
