import VerifiableDelay.Proofs.Run.Steps
/-!
# The end of a run

A run with a bound, and one whose stop flag is raised, comes to its end as
long as the fast path answers: **every step takes something off its weight**
(`Loop.Sound.weight_lt`). A squaring weighs more than all the phases on the
way to the next, and the fuel of a run more than any state of it.
-/

namespace VerifiableDelay

/-- Steps that are left within a batch, with `slack` for the batch that can
follow. -/
def Phase.weight (slack : Nat) : Phase → Nat
  | .ready => 3 + slack
  | .asked _ => 9
  | .handing [] _ => 7 + slack
  | .handing (_ :: _) _ => 8
  | .boundary => 6 + slack
  | .aligning _ => 5 + slack
  | .publishing false => 4 + slack
  | .publishing true => 2 + slack
  | .closing => 1 + slack
  | .ended => slack

theorem Phase.weight_le {slack : Nat} (hslack : slack ≤ 7) (phase : Phase) :
    phase.weight slack ≤ 14 := by
  unfold weight
  split <;> omega

/-- More slack is more weight. -/
theorem Phase.weight_mono {slack slack' : Nat} (h : slack ≤ slack') (phase : Phase) :
    phase.weight slack ≤ phase.weight slack' := by
  unfold weight
  split <;> omega

/-- Only at the end nothing is left. -/
theorem Phase.weight_pos {phase : Phase} (h : phase ≠ .ended) (slack : Nat) :
    0 < phase.weight slack := by
  unfold weight
  split <;> first | omega | exact absurd rfl h

namespace Loop

variable {σ : Type} {l : Loop σ} {e e' e₀ : Engine σ}

/-- Squarings left to the bound, if there is one. -/
def room (l : Loop σ) (n : Nat) : Nat :=
  match l.bound with
  | some bound => bound - n
  | none => 0

/-- No batch follows once the flag is raised. -/
def slack (raised : Bool) : Nat := if raised then 0 else 7

/-- **The weight of a state.** -/
def weight (l : Loop σ) (e : Engine σ) : Nat :=
  8 * l.room e.done + e.phase.weight (slack e.stopRaised)

/-- Something will end the run: its bound, or the flag. -/
def Ends (l : Loop σ) (e : Engine σ) : Prop := l.bound.isSome = true ∨ e.stopRaised = true

theorem slack_le (raised : Bool) : slack raised ≤ 7 := by
  cases raised <;> simp [slack]

/-- The flag is never lowered. -/
theorem slack_or_le (raised more : Bool) : slack (raised || more) ≤ slack raised := by
  cases raised <;> cases more <;> simp [slack]

theorem room_succ_le (n : Nat) : l.room (n + 1) ≤ l.room n := by
  unfold room
  split <;> omega

/-- A squaring takes one off the room. -/
theorem room_succ_lt {n : Nat} (hb : l.bound.isSome = true) (hroom : l.hasRoom n = true) :
    l.room (n + 1) < l.room n := by
  obtain ⟨bound, hb⟩ := Option.isSome_iff_exists.1 hb
  simp only [hasRoom, hb, decide_eq_true_eq] at hroom
  simp only [room, hb]
  omega

/-- A delivery adds no weight. -/
theorem weight_deliver_le (e : Engine σ) (f : Form) : l.weight (l.deliver e f) ≤ l.weight e := by
  have hroom := l.room_succ_le e.done
  have hphase := Phase.weight_mono (slack_or_le e.stopRaised
    (l.listener.stops (l.listener.deliver e.listening f (e.done + 1)))) e.phase
  simp only [weight, deliver]
  omega

/-- With a bound it takes more off than any phase weighs. -/
theorem weight_deliver_le_of_isSome (f : Form) (hb : l.bound.isSome = true)
    (hroom : l.hasRoom e.done = true) : l.weight (l.deliver e f) ≤ 8 * l.room e.done + 6 := by
  have hlt := room_succ_lt hb hroom
  have hphase := Phase.weight_le (slack_le (l.deliver e f).stopRaised) e.phase
  simp only [weight, deliver] at hphase ⊢
  omega

/-- **Every step takes something off the weight.** -/
theorem Sound.weight_lt (h : l.Sound e) (hends : l.Ends e) (hs : l.Step e e') :
    l.weight e' < l.weight e := by
  have hphase := h.expected
  rw [Expected] at hphase
  cases hs with
  | stops hp _ => simp [weight, hp, Phase.weight]
  | fills hp _ => simp [weight, hp, Phase.weight]
  | asks hp hraised _ => simp [weight, hp, hraised, slack, Phase.weight]
  | takes hp _ _ hforms =>
    obtain ⟨hne, -, -⟩ := fits_of_accepts hforms
    obtain ⟨f, rest, rfl⟩ := List.exists_cons_of_ne_nil hne
    simp [weight, hp, Phase.weight]
  | refuses hp =>
    rw [hp] at hphase
    have hweight : l.weight e = 8 * l.room e.done + 9 := by rw [weight, hp, Phase.weight]
    rw [hweight]
    rcases hends with hb | hraised
    · refine lt_of_le_of_lt (weight_deliver_le_of_isSome _ hb hphase.2) ?_
      simp
    · refine (weight_deliver_le _ _).trans_lt ?_
      simp [weight, hraised, slack, Phase.weight]
  | hands hp hraised =>
    rw [hp] at hphase
    have hb : l.bound.isSome = true := hends.resolve_right (by simp [hraised])
    have hroom : l.hasRoom e.done = true := by
      refine hasRoom_iff.2 fun bound hbound => ?_
      have := hphase.2 bound hbound
      simp only [List.length_cons] at this
      omega
    have hweight : l.weight e = 8 * l.room e.done + 8 := by rw [weight, hp, Phase.weight]
    rw [hweight]
    refine lt_of_le_of_lt (weight_deliver_le_of_isSome _ hb hroom) ?_
    simp
  | drops hp hraised => simp [weight, hp, hraised, slack, Phase.weight]
  | topsUp hp =>
    refine (weight_deliver_le _ _).trans_lt ?_
    simp [weight, hp, Phase.weight]
  | finishes hp => simp [weight, hp, Phase.weight]
  | consults hp _ hphase =>
    have hle := slack_or_le e.stopRaised (l.listener.stops
      (l.listener.boundary e.listening e.done e.progress.count).1)
    rcases hphase with ⟨-, -, rfl⟩ | ⟨step, -, -, rfl⟩ | ⟨-, -, rfl⟩ <;>
      simp only [weight, hp, Phase.weight] <;> omega
  | aligns hp hraised hroom =>
    have hb : l.bound.isSome = true := hends.resolve_right (by simp [hraised])
    refine (weight_deliver_le_of_isSome _ hb hroom).trans_lt ?_
    simp [weight, hp, hraised, slack, Phase.weight]
  | announces hp =>
    have hle := slack_or_le e.stopRaised (l.listener.stops (l.listener.aligned e.listening e.done))
    simp only [weight, announce, hp, Phase.weight]
    omega
  | settles hp => simp [weight, hp, Phase.weight]
  | @publishes last hp => cases last <;> simp [weight, hp, Phase.weight]
  | closes hp => simp [weight, hp, Phase.weight]

/-- What will end the run stays. -/
theorem Ends.step (hends : l.Ends e) (hs : l.Step e e') : l.Ends e' := by
  refine hends.imp_right fun hraised => ?_
  cases hs <;> simp [hraised, square, deliver, announce]

/-- A fast path that always answers. -/
def Answers (l : Loop σ) : Prop :=
  ∀ attempt f done requested, (l.accelerator attempt f done requested).isSome = true

/-- Then only the end is without a step. -/
theorem Answers.exists_step (ha : l.Answers) (hp : e.phase ≠ .ended) :
    ∃ e', l.step? e = some e' := by
  rw [step?]
  cases hphase : e.phase with
  | asked requested =>
    obtain ⟨reply, hreply⟩ := Option.isSome_iff_exists.1 (ha e.attempts e.form e.done requested)
    simp only [hreply]
    exact ⟨_, rfl⟩
  | handing forms short =>
    cases forms with
    | nil => simp only; split <;> exact ⟨_, rfl⟩
    | cons f rest => simp only; split <;> exact ⟨_, rfl⟩
  | ended => exact absurd hphase hp
  | _ => simp only; first | exact ⟨_, rfl⟩ | (repeat' split) <;> exact ⟨_, rfl⟩

/-- **With enough fuel the end is reached.** -/
theorem Answers.advance_ended (ha : l.Answers) (h : l.Sound e) (hends : l.Ends e) {fuel : Nat}
    (hfuel : l.weight e ≤ fuel) : (l.advance (fun _ => false) fuel e).phase = .ended := by
  induction fuel generalizing e with
  | zero =>
    by_contra hp
    have hpos := Phase.weight_pos hp (slack e.stopRaised)
    simp only [weight, advance] at hfuel hpos
    omega
  | succ fuel ih =>
    rw [advance, if_neg Bool.false_ne_true]
    by_cases hp : e.phase = .ended
    · rw [step?, hp]
      exact hp
    · obtain ⟨e', hs⟩ := ha.exists_step hp
      have hstep := step_of_eq_some hs
      have hlt := h.weight_lt hends hstep
      rw [hs]
      exact ih (h.step hstep) (hends.step hstep) (by omega)

/-- **A run comes to its end**, from whatever state it goes on, if its fast
path answers and something will end it. -/
theorem Answers.run_ended (ha : l.Answers) (h : l.Sound e) (hends : l.Ends e) :
    (l.run e).phase = .ended := by
  refine ha.advance_ended h hends ?_
  have hphase := Phase.weight_le (slack_le e.stopRaised) e.phase
  have hroom : l.room e.done ≤ l.bound.getD wordCount := by
    cases hb : l.bound <;> simp [room, hb]
  rw [weight, fuel]
  omega

end Loop

end VerifiableDelay
