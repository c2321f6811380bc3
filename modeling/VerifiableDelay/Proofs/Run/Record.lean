import VerifiableDelay.Proofs.Run.Steps
/-!
# What a run delivers

Any listener can be made to keep what is delivered to it, and a run does not
notice: its states are those of the run with the listener that keeps
(`Loop.reaches_iff_exists_recorded`). The record of a run holds one form for
each squaring, in order, and **every entry is the count and the form of a
state the run came through** (`Loop.Reaches.recorded`), so whatever holds of
these is true of what is delivered.
-/

namespace VerifiableDelay

variable {σ : Type}

/-- A listener that also keeps each form with its number. -/
def Listener.recorded (listener : Listener σ) : Listener (σ × List (Nat × Form)) where
  deliver s f iteration := (listener.deliver s.1 f iteration, s.2 ++ [(iteration, f)])
  boundary s done published :=
    let (listening, answer) := listener.boundary s.1 done published
    ((listening, s.2), answer)
  aligned s done := (listener.aligned s.1 done, s.2)
  stops s := listener.stops s.1

/-- The loop with a listener that keeps. -/
def Loop.recorded (l : Loop σ) : Loop (σ × List (Nat × Form)) where
  discriminant := l.discriminant
  listener := l.listener.recorded
  accelerator := l.accelerator
  batchSize := l.batchSize
  bound := l.bound

namespace Engine

/-- What is delivered so far. -/
def record (E : Engine (σ × List (Nat × Form))) : List (Nat × Form) := E.listening.2

/-- The state without the record. -/
def forget (E : Engine (σ × List (Nat × Form))) : Engine σ :=
  { E with listening := E.listening.1 }

end Engine

namespace Loop

variable {l : Loop σ} {e e' e₀ : Engine σ} {E E' E₀ : Engine (σ × List (Nat × Form))}

/-! ## A run does not notice -/

theorem forget_receive (requested : Nat) (reply : Reply) :
    (l.recorded.receive E requested reply).forget = l.receive E.forget requested reply := by
  rw [receive, receive]
  cases reply.outcome with
  | unavailable => rfl
  | corrupted => rfl
  | completed forms =>
    simp only
    by_cases h : l.accepts forms requested = true
    · rw [if_pos h, if_pos (show l.recorded.accepts forms requested = true from h)]
      rfl
    · rw [if_neg h, if_neg (show ¬ l.recorded.accepts forms requested = true from h)]
      rfl

theorem forget_consult : (l.recorded.consult E).forget = l.consult E.forget := by
  rw [consult, consult]
  cases hanswer : (l.listener.boundary E.listening.1 E.done E.progress.count).2 <;>
    simp [recorded, Listener.recorded, Engine.forget, hanswer]

/-- **A step does the same with a record as without.** -/
theorem forget_step? : (l.recorded.step? E).map Engine.forget = l.step? E.forget := by
  have hroom : l.recorded.hasRoom E.done = l.hasRoom E.done := rfl
  have hphase : E.forget.phase = E.phase := rfl
  have hdone : E.forget.done = E.done := rfl
  have hraised : E.forget.stopRaised = E.stopRaised := rfl
  rw [step?, step?, hphase]
  cases hp : E.phase with
  | ready =>
    simp only [hroom, hdone, hraised]
    repeat' split
    all_goals rfl
  | asked requested =>
    simp only [Option.map_map]
    exact congrArg (Option.map · _) (funext fun reply => forget_receive requested reply)
  | handing forms short => cases forms <;> simp only [hroom, hdone, hraised] <;> split <;> rfl
  | boundary => exact congrArg some forget_consult
  | aligning step =>
    simp only [hroom, hdone, hraised]
    repeat' split
    all_goals rfl
  | publishing last => rfl
  | closing => rfl
  | ended => rfl

/-- **The states of a run are those with a record, without it.** -/
theorem reaches_iff_exists_recorded (E₀ : Engine (σ × List (Nat × Form))) :
    l.Reaches E₀.forget e ↔ ∃ E, l.recorded.Reaches E₀ E ∧ E.forget = e := by
  constructor
  · intro h
    induction h with
    | start => exact ⟨E₀, .start, rfl⟩
    | step _ hs ih =>
      obtain ⟨E, hE, rfl⟩ := ih
      rw [← forget_step?, Option.map_eq_some_iff] at hs
      obtain ⟨E', hs, rfl⟩ := hs
      exact ⟨E', hE.step hs, rfl⟩
    | stop _ ih =>
      obtain ⟨E, hE, rfl⟩ := ih
      exact ⟨E.stop, hE.stop, rfl⟩
  · rintro ⟨E, hE, rfl⟩
    induction hE with
    | start => exact .start
    | step _ hs ih =>
      refine ih.step ?_
      rw [← forget_step?, hs, Option.map_some]
    | stop _ ih => exact ih.stop

/-! ## What the record holds -/

/-- **A step delivers at most one form**, the one it comes to. -/
theorem Step.record (hs : l.recorded.Step E E') :
    (E'.record = E.record ∧ E'.done = E.done ∧ E'.form = E.form) ∨
      (E'.record = E.record ++ [(E'.done, E'.form)] ∧ E'.done = E.done + 1) := by
  cases hs with
  | refuses | hands | topsUp | aligns => exact .inr ⟨rfl, rfl⟩
  | _ => exact .inl ⟨rfl, rfl, rfl⟩

/-- **A run has delivered each form once and in order**, and the last one is
where it is. -/
structure Delivered (E₀ E : Engine (σ × List (Nat × Form))) : Prop where
  indices : E.record.map Prod.fst = List.range' 1 E.done
  last : (E.record.map Prod.snd).getLastD E₀.form = E.form

theorem Delivered.step (h : Delivered E₀ E) (hs : l.recorded.Step E E') : Delivered E₀ E' := by
  rcases hs.record with ⟨hrecord, hdone, hform⟩ | ⟨hrecord, hdone⟩
  · exact ⟨by rw [hrecord, hdone, h.indices], by rw [hrecord, hform, h.last]⟩
  · refine ⟨?_, ?_⟩
    · rw [hrecord, hdone, List.map_append, h.indices, List.range'_1_concat]
      simp [Nat.add_comm]
    · rw [hrecord]
      simp

theorem Reaches.delivered (h : l.recorded.Reaches E₀ E) (h₀ : Delivered E₀ E₀) :
    Delivered E₀ E := by
  induction h with
  | start => exact h₀
  | step _ hs ih => exact ih.step (step_of_eq_some hs)
  | stop _ ih => exact ⟨ih.indices, ih.last⟩

/-- The entries are numbered from one. -/
theorem Delivered.fst_eq (h : Delivered E₀ E) {i : Nat} {p : Nat × Form}
    (hp : E.record[i]? = some p) : p.1 = i + 1 := by
  have hi := congrArg (·[i]?) h.indices
  simp only [List.getElem?_map, hp, Option.map_some] at hi
  obtain ⟨_, hi⟩ := List.getElem?_eq_some_iff.1 hi.symm
  rw [List.getElem_range'] at hi
  omega

/-- **Every entry is the count and the form of a state come through.** -/
theorem Reaches.recorded (h : l.recorded.Reaches E₀ E) (h₀ : E₀.record = []) :
    ∀ p ∈ E.record, ∃ E', l.recorded.Reaches E₀ E' ∧ p = (E'.done, E'.form) := by
  induction h with
  | start => simp [h₀]
  | @step E E' hr hs ih =>
    intro p hp
    rcases (step_of_eq_some hs).record with ⟨hrecord, -, -⟩ | ⟨hrecord, -⟩
    · exact ih p (hrecord ▸ hp)
    · rw [hrecord, List.mem_append, List.mem_singleton] at hp
      rcases hp with hp | rfl
      · exact ih p hp
      · exact ⟨E', hr.step hs, rfl⟩
  | stop _ ih => exact ih

end Loop

end VerifiableDelay
