import VerifiableDelay.Recorder.Uniform
import VerifiableDelay.Proofs.Run.Listening
/-!
# What the uniform recorder has

After `m` forms of a history, the start among them, each of those on the
stride is in its slot, up to the length of run that is wanted, and the last
form is there as soon as it is one of them (`UniformRecorder.Recorded`). The
store has room for all of them: **no form is ever turned away**.
-/

namespace VerifiableDelay

variable {history : Nat → Form} {stride wanted m k : Nat}

/-- **What is kept of the first `m` forms** of a history on a uniform
stride. -/
structure Archive.Kept (history : Nat → Form) (stride wanted : Nat) (a : Archive) (m : Nat) :
    Prop where
  capacity_eq : a.store.capacity = (Layout.ofRun stride wanted).capacity
  full_eq : a.full = false
  slot : ∀ k, stride * k < m → stride * k ≤ wanted →
    a.store.get? k = some (history (stride * k))

namespace Archive

variable {a : Archive}

/-- There is nothing to keep past the length wanted. -/
theorem Kept.past (h : Kept history stride wanted a m) (hm : wanted < m) :
    Kept history stride wanted a (m + 1) where
  capacity_eq := h.capacity_eq
  full_eq := h.full_eq
  slot k _ hk := h.slot k (by omega) hk

/-- Nor off the stride. -/
theorem Kept.off (h : Kept history stride wanted a m) (hm : m % stride ≠ 0) :
    Kept history stride wanted a (m + 1) where
  capacity_eq := h.capacity_eq
  full_eq := h.full_eq
  slot k hk hwanted := by
    have hne : stride * k ≠ m := by
      rintro rfl
      exact hm (Nat.mul_mod_right _ _)
    exact h.slot k (by omega) hwanted

/-- **On the stride there is room**, and what is there stays. -/
theorem Kept.keep (h : Kept history stride wanted a (stride * k)) (hstride : 0 < stride)
    (hk : stride * k ≤ wanted) :
    Kept history stride wanted (a.keep ((Layout.ofRun stride wanted).slot? (stride * k) 0)
      (history (stride * k))) (stride * k + 1) := by
  have hroom : k < a.store.capacity := by
    have hle : k ≤ wanted / stride :=
      (Nat.le_div_iff_mul_le hstride).2 (Nat.mul_comm k stride ▸ hk)
    rw [h.capacity_eq, Layout.ofRun, Layout.capacity]
    omega
  rw [Layout.slot?_ofRun hstride hk]
  have hslot : ∀ slot, some k = some slot → slot < a.store.capacity := by
    rintro _ ⟨rfl⟩
    exact hroom
  refine ⟨(capacity_keep _ _ _).trans h.capacity_eq, ?_, fun j hj hwanted => ?_⟩
  · rw [full_keep _ hslot, h.full_eq]
    rfl
  · rw [get?_keep _ hslot]
    by_cases hjk : k = j
    · rw [if_pos (congrArg some hjk), hjk]
    · have hne : stride * j ≠ stride * k := fun heq =>
        hjk (Nat.eq_of_mul_eq_mul_left hstride heq.symm)
      rw [if_neg (by simpa using hjk)]
      exact h.slot j (by omega) hwanted

end Archive

namespace UniformRecorder

variable {parameters : Parameters} {r : UniformRecorder} {f : Form}

/-- **What a delivery does**: it keeps a form on the stride, and sets the last
one aside. -/
theorem deliver_eq : r.deliver f m =
    { r with
      archive := if r.wanted < m ∨ m % r.parameters.stride ≠ 0 then r.archive
        else r.archive.keep (r.layout.slot? m 0) f
      result := if m = r.wanted then some f else r.result } := by
  unfold deliver keep
  by_cases hpast : r.wanted < m
  · have hne : m ≠ r.wanted := by omega
    simp [hpast, hne]
  · by_cases hmod : m % r.parameters.stride = 0
    · simp only [hpast, hmod, ne_eq, not_true_eq_false, or_self, if_true, if_false]
      split <;> rfl
    · simp only [hpast, hmod, ne_eq, not_false_eq_true, or_true, if_true, if_false]
      split <;> rfl

/-- **What is recorded of the first `m` forms** of a history. -/
structure Recorded (history : Nat → Form) (parameters : Parameters) (wanted : Nat)
    (r : UniformRecorder) (m : Nat) : Prop where
  parameters_eq : r.parameters = parameters
  wanted_eq : r.wanted = wanted
  kept : r.archive.Kept history parameters.stride wanted m
  result_eq : r.result = if wanted < m then some (history wanted) else none

theorem Recorded.layout_eq (h : Recorded history parameters wanted r m) :
    r.layout = .ofRun parameters.stride wanted := by
  rw [layout, h.parameters_eq, h.wanted_eq]

/-- **A delivery records one form more.** -/
theorem Recorded.deliver (h : Recorded history parameters wanted r m) :
    Recorded history parameters wanted (r.deliver (history m) m) (m + 1) := by
  rw [deliver_eq, h.wanted_eq, h.layout_eq, h.parameters_eq, h.result_eq]
  refine ⟨rfl, rfl, ?_, ?_⟩
  · simp only
    split
    · rename_i hnone
      rcases hnone with hpast | hoff
      · exact h.kept.past hpast
      · exact h.kept.off hoff
    · rename_i hon
      obtain ⟨hwithin, hmod⟩ := not_or.1 hon
      obtain ⟨k, rfl⟩ := Nat.dvd_of_mod_eq_zero (not_not.1 hmod)
      exact h.kept.keep parameters.stride_pos (Nat.le_of_not_lt hwithin)
  · by_cases hlast : m = wanted
    · subst hlast
      rw [if_pos rfl, if_pos (Nat.lt_succ_self m)]
    · have hiff : wanted < m + 1 ↔ wanted < m := by omega
      simp only [hlast, hiff, if_false]

/-- The recorder keeps this, and asks for no multiple. -/
theorem keeps_recorded (history : Nat → Form) (parameters : Parameters) (wanted : Nat) :
    listener.Keeps history (fun _ _ => False)
      fun r n => Recorded history parameters wanted r (n + 1) where
  deliver _ _ h := h.deliver
  boundary _ _ _ h := h
  asks r n published step _ hanswer := by
    simp only [listener, boundary] at hanswer
    split at hanswer <;> cases hanswer
  asks_succ _ _ h := h
  aligned _ _ _ h _ _ := h

/-- Before there is anything. -/
def empty (parameters : Parameters) (wanted : Nat) : UniformRecorder where
  parameters := parameters
  wanted := wanted
  archive := { store := { capacity := (Layout.ofRun parameters.stride wanted).capacity } }
  result := none

/-- The start is handed over like the forms after it. -/
theorem startWith_eq_deliver (parameters : Parameters) (x : Form) (wanted : Nat) :
    startWith parameters x wanted = (empty parameters wanted).deliver x 0 := by
  rw [deliver_eq, if_neg (by simp)]
  simp only [startWith, keep, empty, layout, eq_comm]

/-- **It starts so**, with the form that it is given. -/
theorem recorded_startWith (parameters : Parameters) {x : Form} (wanted : Nat)
    (hx : history 0 = x) :
    Recorded history parameters wanted (startWith parameters x wanted) 1 := by
  have hempty : Recorded history parameters wanted (empty parameters wanted) 0 :=
    ⟨rfl, rfl, ⟨rfl, rfl, fun k hk => absurd hk (Nat.not_lt_zero _)⟩, rfl⟩
  rw [startWith_eq_deliver, ← hx]
  exact hempty.deliver

end UniformRecorder

end VerifiableDelay
