import VerifiableDelay.Recorder.Widening
import VerifiableDelay.Proofs.Checkpoint.Widening
import VerifiableDelay.Proofs.Run.Listening
/-!
# What the widening recorder has

After `m` forms of a history, the start among them, each slot holds the form
of its iteration if that is one of them, and nothing if it is still to come
(`WideningRecorder.Recorded`). The stride widens at a multiple of a hundred
that has been reached, and no earlier than it may. The recorder starts so,
and **neither a delivery nor the change of the stride takes anything away**.
-/

namespace VerifiableDelay

namespace WideningRecorder

variable {o : Overflow}
variable {history : Nat → Form} {s : Settings} {r : WideningRecorder} {m n : Nat}

/-- **What is recorded of the first `m` forms** of a history. -/
structure Recorded (history : Nat → Form) (s : Settings) (r : WideningRecorder) (m : Nat) :
    Prop where
  switchIterations_eq : r.switchIterations = s.switchIterations
  haltAt_eq : r.haltAt = s.maxIterations - s.haltMargin
  capacity_eq : r.archive.store.capacity = r.layout.capacity
  switch : ∀ point, r.layout.switch = some point →
    point % 100 = 0 ∧ s.switchIterations ≤ point ∧ point < m
  slot : ∀ i slot, r.layout.slot? i = some slot →
    r.archive.store.get? slot = if i < m then some (history i) else none

/-- Only the forms that were handed over matter. -/
theorem Recorded.congr {history' : Nat → Form} (h : Recorded history s r m)
    (heq : ∀ i < m, history i = history' i) : Recorded history' s r m where
  switchIterations_eq := h.switchIterations_eq
  haltAt_eq := h.haltAt_eq
  capacity_eq := h.capacity_eq
  switch := h.switch
  slot i slot hi := by
    rw [h.slot i slot hi]
    refine if_ctx_congr Iff.rfl (fun hlt => congrArg some (heq i hlt)) fun _ => rfl

theorem Recorded.layout_aligned (h : Recorded history s r m) : r.layout.Aligned :=
  fun point hpoint => (h.switch point hpoint).1

/-- What has a slot has a place in the store. -/
theorem Recorded.slot_lt_capacity (h : Recorded history s r m) {i slot : Nat}
    (hslot : r.layout.slot? i = some slot) : slot < r.archive.store.capacity := by
  rw [h.capacity_eq]
  simpa using (Option.filter_eq_some_iff.1 hslot).2

/-- **A delivery records one form more.** -/
theorem Recorded.deliver (h : Recorded history s r m) :
    Recorded history s (r.deliver (history m) m) (m + 1) := by
  unfold WideningRecorder.deliver
  split
  · refine ⟨h.switchIterations_eq, h.haltAt_eq, ?_, ?_, ?_⟩
    · exact (Archive.capacity_keep _ _ _).trans h.capacity_eq
    · intro point hpoint
      obtain ⟨hmod, hle, hlt⟩ := h.switch point hpoint
      exact ⟨hmod, hle, by omega⟩
    · intro i slot hi
      replace hi : r.layout.slot? i = some slot := hi
      refine (Archive.get?_keep (history m) (fun _ => h.slot_lt_capacity) slot).trans ?_
      by_cases hm : i = m
      · subst hm
        rw [if_pos hi, if_pos (Nat.lt_succ_self i)]
      · have hne : r.layout.slot? m ≠ some slot := by
          intro hslot
          exact hm (Widening.eq_of_slot?_eq h.layout_aligned hi hslot)
        have hiff : i < m + 1 ↔ i < m := by omega
        rw [if_neg hne, h.slot i slot hi]
        simp only [hiff]
  · rename_i hmod
    refine ⟨h.switchIterations_eq, h.haltAt_eq, h.capacity_eq, ?_, ?_⟩
    · intro point hpoint
      obtain ⟨hmod, hle, hlt⟩ := h.switch point hpoint
      exact ⟨hmod, hle, by omega⟩
    · intro i slot hi
      -- what is not on the stride has no slot
      have hne : i ≠ m := by
        rintro rfl
        exact hmod ((Widening.onStride_iff_mod_strideAt h.layout_aligned).1
          (Widening.onStride_of_slot? hi))
      have hiff : i < m + 1 ↔ i < m := by omega
      rw [h.slot i slot hi]
      simp only [hiff]

/-- **Widening the stride** leaves what is recorded where it is found. -/
theorem Recorded.aligned (h : Recorded history s r (n + 1)) (hn : n % 100 = 0)
    (hle : s.switchIterations ≤ n) : Recorded history s (r.aligned n) (n + 1) := by
  unfold WideningRecorder.aligned
  split
  · rename_i hnone
    rw [Option.isNone_iff_eq_none] at hnone
    refine ⟨h.switchIterations_eq, h.haltAt_eq, h.capacity_eq, ?_, ?_⟩
    · intro point hpoint
      rw [r.layout.switch_widen hn] at hpoint
      cases hpoint
      exact ⟨hn, hle, Nat.lt_succ_self n⟩
    · intro i slot hi
      obtain ⟨j, hj, hsame, hlater⟩ := Widening.exists_slot?_of_widen hnone hn hi
      have hget := h.slot j slot hj
      by_cases hi' : i ≤ n
      · rw [hsame hi'] at hget
        exact hget
      · have := hlater (by omega)
        rw [if_neg (by omega)] at hget
        rw [if_neg (by omega)]
        exact hget
  · exact h

/-- **What is in a slot is the form of its iteration**, which was handed
over. -/
theorem Recorded.eq_of_get? (h : Recorded history s r m) {i slot : Nat} {f : Form}
    (hslot : (Layout.widening r.layout).slot? i 0 = some slot)
    (hf : r.archive.store.get? slot = some f) : f = history i ∧ i < m := by
  rw [h.slot i slot hslot] at hf
  split at hf
  · rename_i hlt
    cases hf
    exact ⟨rfl, hlt⟩
  · cases hf

theorem formAt_eq_ok_iff {i : Nat} {f : Form} :
    r.formAt i = .ok f ↔ ∃ slot, (Layout.widening r.layout).slot? i 0 = some slot ∧
      r.archive.store.get? slot = some f := by
  simp only [formAt, formAt?, bind_eq_ok_iff, pure_eq_ok_iff, Layout.slot_eq_ok_iff]
  constructor
  · rintro ⟨found, ⟨slot, hslot, rfl⟩, hf⟩
    split at hf
    · rename_i g hg
      cases hf
      exact ⟨slot, hslot, hg⟩
    · cases hf
  · rintro ⟨slot, hslot, hf⟩
    exact ⟨_, ⟨slot, hslot, rfl⟩, by rw [hf]⟩

/-- What the recorder asks for: a multiple of a hundred, once the stride may
widen. -/
theorem of_boundary_eq_alignTo {published step : Nat}
    (h : (listener.boundary r n published).2 = .alignTo step) :
    step = 100 ∧ r.switchIterations ≤ n := by
  simp only [listener, boundary] at h
  split at h
  · cases h
  · split at h
    · rename_i hswitch
      cases h
      exact ⟨rfl, hswitch.1⟩
    · cases h

/-- The recorder keeps this. -/
theorem keeps_recorded (history : Nat → Form) (s : Settings) :
    listener.Keeps history (fun step n => step = 100 ∧ s.switchIterations ≤ n)
      fun r n => Recorded history s r (n + 1) where
  deliver _ _ h := h.deliver
  boundary _ _ _ h := h
  asks r n published step h hanswer := by
    obtain ⟨hstep, hle⟩ := of_boundary_eq_alignTo hanswer
    exact ⟨hstep, h.switchIterations_eq ▸ hle⟩
  asks_succ _ _ h := ⟨h.1, Nat.le_succ_of_le h.2⟩
  aligned _ _ _ h hasks hmultiple := h.aligned (hasks.1 ▸ hmultiple) hasks.2

theorem recorded_empty (history : Nat → Form) (s : Settings) :
    Recorded history s (empty s) 0 :=
  ⟨rfl, rfl, rfl, fun point hpoint => (by cases hpoint), fun i slot _ => by simp [empty]⟩

/-- The start is handed over like the forms after it. -/
theorem eq_deliver_of_start {x : Form} (h : start o s x = .ok r) : r = (empty s).deliver x 0 := by
  simp only [start, bind_eq_ok_iff, pure_eq_ok_iff] at h
  obtain ⟨_, -, rfl⟩ := h
  rw [deliver, if_pos (Nat.zero_mod _)]

/-- **It starts so**, with the form that it is given. -/
theorem recorded_start {x : Form} (h : start o s x = .ok r) (hx : history 0 = x) :
    Recorded history s r 1 := by
  rw [eq_deliver_of_start h, ← hx]
  exact (recorded_empty history s).deliver

end WideningRecorder

end VerifiableDelay
