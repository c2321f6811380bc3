import VerifiableDelay.Recorder.Rolling
import VerifiableDelay.Proofs.Checkpoint.Rolling
import VerifiableDelay.Proofs.Run.Listening
/-!
# What the rolling recorder has

After `m` forms of a history, the start among them, each checkpoint is in
its slot unless a window of its level has gone by since, and the ends of
shortest segments are those of the history, as many as there is room for
(`RollingRecorder.Recorded`). The recorder starts so, and **every delivery
keeps it so** (`RollingRecorder.Recorded.deliver`).
-/

namespace VerifiableDelay

open Form

namespace RollingRecorder

variable {history : Nat → Form} {layout : Rolling} {capacity m : Nat} {r : RollingRecorder}
variable {f : Form} {i : Nat} {a : Archive}

/-- **What is recorded of the first `m` forms** of a history. -/
structure Recorded (history : Nat → Form) (layout : Rolling) (capacity : Nat)
    (r : RollingRecorder) (m : Nat) : Prop where
  layout_eq : r.layout = layout
  capacity_eq : r.archive.store.capacity = layout.totalSlots
  endsCapacity_eq : r.ends.capacity = capacity
  /-- Within a window of it, a checkpoint is in its slot. -/
  slot : ∀ i level slot, layout.slot? i level = some slot → i < m →
    m ≤ i + layout.window * layout.segmentLength level →
      r.archive.store.get? slot = some (history i)
  ends : ∀ k, r.ends.get? k = if k * layout.segmentLength 0 < m ∧ k < capacity then
    some (history (k * layout.segmentLength 0)) else none

/-- **A slot that has been used has a form in it**: that of the last checkpoint
it was used for. -/
theorem Recorded.exists_get? (h : Recorded history layout capacity r m)
    (hwindow : 0 < layout.window) {level slot : Nat} (hslot : layout.slot? i level = some slot)
    (hi : i < m) : ∃ f, r.archive.store.get? slot = some f := by
  have hpos : 0 < layout.window * layout.segmentLength level :=
    Nat.mul_pos hwindow (layout.segmentLength_pos level)
  have hsplit := Nat.mod_add_div' (m - 1 - i) (layout.window * layout.segmentLength level)
  have hlt := Nat.mod_lt (m - 1 - i) hpos
  exact ⟨_, h.slot _ level slot ((layout.slot?_add_windows i level
    ((m - 1 - i) / (layout.window * layout.segmentLength level))).trans hslot)
      (by omega) (by omega)⟩

/-- What a level keeps of a form. -/
theorem get?_keep (hfits : layout.Fits) (hwindow : 0 < layout.window)
    (hcapacity : a.store.capacity = layout.totalSlots) (level slot : Nat) :
    (keep f i layout a level).store.get? slot =
      if layout.slot? i level = some slot then some f else a.store.get? slot := by
  unfold keep
  split
  · refine Archive.get?_keep f (fun slot hslot => ?_) slot
    rw [hcapacity]
    exact Rolling.slot_lt_totalSlots hfits hwindow hslot
  · rename_i hstored
    rw [if_neg fun h => hstored (Rolling.slot?_eq_some_iff.1 h).2.1]

theorem capacity_keep (f : Form) (i : Nat) (layout : Rolling) (a : Archive) (level : Nat) :
    (keep f i layout a level).store.capacity = a.store.capacity := by
  unfold keep
  split
  · exact Archive.capacity_keep a _ f
  · rfl

/-- **What the levels together keep** of a form. -/
theorem foldl_keep (hfits : layout.Fits) (hwindow : 0 < layout.window)
    (hcapacity : a.store.capacity = layout.totalSlots) (levels : Nat) :
    ((List.range levels).foldl (keep f i layout) a).store.capacity = layout.totalSlots ∧
      ∀ slot, ((List.range levels).foldl (keep f i layout) a).store.get? slot =
        if ∃ level < levels, layout.slot? i level = some slot then some f
        else a.store.get? slot := by
  induction levels with
  | zero => simp [hcapacity]
  | succ levels ih =>
    obtain ⟨hcap, hget⟩ := ih
    rw [List.range_succ, List.foldl_append, List.foldl_cons, List.foldl_nil]
    refine ⟨(capacity_keep f i layout _ levels).trans hcap, fun slot => ?_⟩
    rw [get?_keep hfits hwindow hcap, hget]
    simp only [Nat.lt_succ_iff_lt_or_eq, or_and_right, exists_or, exists_eq_left]
    by_cases hlast : layout.slot? i levels = some slot
    · simp [hlast]
    · simp [hlast]

/-- What is kept of the ends. -/
theorem keepEnd_spec (r : RollingRecorder) (f : Form) (i : Nat) :
    (keepEnd r f i).layout = r.layout ∧ (keepEnd r f i).archive.store = r.archive.store ∧
      (keepEnd r f i).ends.capacity = r.ends.capacity ∧
      ∀ k, (keepEnd r f i).ends.get? k =
        if i = k * r.layout.segmentLength 0 ∧ k < r.ends.capacity then some f
        else r.ends.get? k := by
  have hpos := r.layout.segmentLength_pos 0
  unfold keepEnd
  simp only
  split
  · rename_i hmod
    obtain ⟨j, rfl⟩ := Nat.dvd_of_mod_eq_zero hmod
    rw [Nat.mul_div_cancel_left j hpos]
    have hiff : ∀ k, r.layout.segmentLength 0 * j = k * r.layout.segmentLength 0 ↔ j = k := by
      intro k
      rw [Nat.mul_comm, Nat.mul_left_inj hpos.ne']
    simp only [hiff]
    split
    · rename_i ends hset
      have hj := Store.lt_of_set hset
      refine ⟨rfl, rfl, Store.capacity_of_set hset, fun k => ?_⟩
      rw [Store.get?_of_set hset]
      by_cases hk : j = k
      · subst hk
        simp [hj]
      · simp [hk]
    · rename_i hset
      have hj : ¬ j < r.ends.capacity := by
        intro hroom
        obtain ⟨ends, hok⟩ := Store.exists_set hroom f
        cases hset.symm.trans hok
      refine ⟨rfl, rfl, rfl, fun k => ?_⟩
      rw [if_neg]
      rintro ⟨rfl, hk⟩
      exact hj hk
  · rename_i hmod
    refine ⟨rfl, rfl, rfl, fun k => ?_⟩
    rw [if_neg]
    rintro ⟨rfl, -⟩
    exact hmod (Nat.mul_mod_left _ _)

/-- **A delivery records one form more.** -/
theorem Recorded.deliver (h : Recorded history layout capacity r m) (hfits : layout.Fits)
    (hwindow : 0 < layout.window) :
    Recorded history layout capacity (r.deliver (history m) m) (m + 1) := by
  obtain ⟨rfl, hcapacity, rfl, hslot, hends⟩ := h
  obtain ⟨hcap, hkept⟩ :=
    foldl_keep (f := history m) (i := m) hfits hwindow hcapacity r.layout.levels
  obtain ⟨hl, hs, hc, hk⟩ := keepEnd_spec { r with
    archive := (List.range r.layout.levels).foldl (keep (history m) m r.layout) r.archive }
    (history m) m
  refine ⟨hl, hs ▸ hcap, hc, ?_, ?_⟩
  · intro i level slot hi hlt hle
    rw [RollingRecorder.deliver, hs, hkept]
    split
    · -- whatever has this slot now is the checkpoint itself
      rename_i hnew
      obtain ⟨level', -, hm⟩ := hnew
      rw [Rolling.eq_of_slot?_eq_of_lt hfits hwindow hi hm (by omega) (by omega)]
    · rename_i hnew
      have hne : i ≠ m := by
        rintro rfl
        exact hnew ⟨level, (Rolling.slot?_eq_some_iff.1 hi).1, hi⟩
      exact hslot i level slot hi (by omega) (by omega)
  · intro k
    rw [RollingRecorder.deliver, hk, hends]
    by_cases hm : m = k * r.layout.segmentLength 0
    · by_cases hroom : k < r.ends.capacity
      · simp [← hm, hroom]
      · simp [hroom]
    · have hiff : k * r.layout.segmentLength 0 < m + 1 ↔ k * r.layout.segmentLength 0 < m := by
        omega
      simp [hm, hiff]

/-- It never asks for a multiple. -/
theorem boundary_ne_alignTo (r : RollingRecorder) (n published step : Nat) :
    (listener.boundary r n published).2 ≠ .alignTo step := by
  simp only [listener, boundary]
  split <;> exact Boundary.noConfusion

/-- So it keeps whatever its deliveries keep. -/
theorem keeps_of_deliver {P : RollingRecorder → Nat → Prop}
    (hdeliver : ∀ r n, P r n → P (r.deliver (history (n + 1)) (n + 1)) (n + 1)) :
    listener.Keeps history (fun _ _ => False) P where
  deliver := hdeliver
  boundary _ _ _ h := h
  asks r n published step _ hanswer := boundary_ne_alignTo r n published step hanswer
  asks_succ _ _ h := h
  aligned _ _ _ _ h := h.elim

theorem keeps_recorded (hfits : layout.Fits) (hwindow : 0 < layout.window) :
    listener.Keeps history (fun _ _ => False)
      fun r n => Recorded history layout capacity r (n + 1) :=
  keeps_of_deliver fun _ _ h => h.deliver hfits hwindow

/-- What it takes that a run is recorded: valid settings, and in a build that
checks its sums slots that are counted in a word. -/
theorem start_eq_ok_iff {o : Overflow} {s : Settings} {x : Form} :
    start o s x = .ok r ↔
      s.Valid o ∧ (o = .stops → (Rolling.ofSettings s).Fits) ∧ (empty s).deliver x 0 = r := by
  simp only [start, bind_eq_ok_iff, pure_eq_ok_iff, exists_and_right, Overflow.exists_word_iff,
    ← Settings.validate_eq_ok_iff]
  exact ⟨fun ⟨⟨_, hvalid⟩, h⟩ => ⟨hvalid, h⟩, fun ⟨hvalid, h⟩ => ⟨⟨(), hvalid⟩, h⟩⟩

/-- **It starts so**, with the form that it is given. -/
theorem recorded_start {o : Overflow} {s : Settings} {x : Form} (h : start o s x = .ok r)
    (hfits : (Rolling.ofSettings s).Fits) (hx : history 0 = x) :
    Recorded history (.ofSettings s) s.maxCheckpoints r 1 := by
  obtain ⟨hvalid, -, rfl⟩ := start_eq_ok_iff.1 h
  have hempty : Recorded history (.ofSettings s) s.maxCheckpoints (empty s) 0 :=
    ⟨rfl, rfl, rfl, fun _ _ _ _ hlt => absurd hlt (Nat.not_lt_zero _), fun k => by simp [empty]⟩
  have hwindow : 0 < (Rolling.ofSettings s).window :=
    Nat.lt_of_lt_of_le (by decide) hvalid.two_le_window
  exact hx ▸ hempty.deliver hfits hwindow

/-! ## While there is room -/

/-- **Of `m` forms nothing was refused**, whatever they are, as long as there
is room for the ends of shortest segments. -/
structure Roomy (layout : Rolling) (capacity : Nat) (r : RollingRecorder) (m : Nat) : Prop where
  layout_eq : r.layout = layout
  capacity_eq : r.archive.store.capacity = layout.totalSlots
  endsCapacity_eq : r.ends.capacity = capacity
  full_eq : m ≤ capacity * layout.segmentLength 0 → r.archive.full = false

/-- The levels have slots for all that they keep. -/
theorem full_foldl_keep (hfits : layout.Fits) (hwindow : 0 < layout.window)
    (hcapacity : a.store.capacity = layout.totalSlots) {levels : Nat}
    (hlevels : levels ≤ layout.levels) :
    ((List.range levels).foldl (keep f i layout) a).full = a.full := by
  induction levels with
  | zero => rfl
  | succ levels ih =>
    have hcap := (foldl_keep (f := f) (i := i) hfits hwindow hcapacity levels).1
    rw [List.range_succ, List.foldl_append, List.foldl_cons, List.foldl_nil, keep]
    split
    · rename_i hstored
      have hslot := Rolling.slot?_eq_some_iff.2 ⟨hlevels, hstored, rfl⟩
      have hbelow : ∀ slot, layout.slot? i levels = some slot → slot < layout.totalSlots :=
        fun slot => Rolling.slot_lt_totalSlots hfits hwindow
      rw [Archive.full_keep f (hcap ▸ hbelow), hslot, ih (Nat.le_of_succ_le hlevels)]
      exact Bool.or_false _
    · exact ih (Nat.le_of_succ_le hlevels)

theorem full_keepEnd (h : i < r.ends.capacity * r.layout.segmentLength 0) (f : Form) :
    (keepEnd r f i).archive.full = r.archive.full := by
  have hroom := (Nat.div_lt_iff_lt_mul (r.layout.segmentLength_pos 0)).2 h
  obtain ⟨ends, hset⟩ := Store.exists_set hroom f
  simp only [keepEnd, hset]
  split <;> rfl

/-- **A delivery keeps this**, whatever is delivered. -/
theorem Roomy.deliver (h : Roomy layout capacity r m) (hfits : layout.Fits)
    (hwindow : 0 < layout.window) (f : Form) :
    Roomy layout capacity (r.deliver f m) (m + 1) := by
  obtain ⟨rfl, hcapacity, rfl, hfull⟩ := h
  obtain ⟨hcap, -⟩ := foldl_keep (f := f) (i := m) hfits hwindow hcapacity r.layout.levels
  obtain ⟨hl, hs, hc, -⟩ := keepEnd_spec { r with
    archive := (List.range r.layout.levels).foldl (keep f m r.layout) r.archive } f m
  refine ⟨hl, hs ▸ hcap, hc, fun hroom => ?_⟩
  refine (full_keepEnd (r := { r with
    archive := (List.range r.layout.levels).foldl (keep f m r.layout) r.archive }) hroom f).trans ?_
  exact (full_foldl_keep hfits hwindow hcapacity le_rfl).trans (hfull (Nat.le_of_succ_le hroom))

theorem keeps_roomy (hfits : layout.Fits) (hwindow : 0 < layout.window) (history : Nat → Form) :
    listener.Keeps history (fun _ _ => False) fun r n => Roomy layout capacity r (n + 1) :=
  keeps_of_deliver fun _ _ h => h.deliver hfits hwindow _

theorem roomy_start {o : Overflow} {s : Settings} {x : Form} (h : start o s x = .ok r)
    (hfits : (Rolling.ofSettings s).Fits) : Roomy (.ofSettings s) s.maxCheckpoints r 1 := by
  obtain ⟨hvalid, -, rfl⟩ := start_eq_ok_iff.1 h
  have hempty : Roomy (.ofSettings s) s.maxCheckpoints (empty s) 0 :=
    ⟨rfl, rfl, rfl, fun _ => rfl⟩
  exact hempty.deliver hfits (Nat.lt_of_lt_of_le (by decide) hvalid.two_le_window) x

end RollingRecorder

end VerifiableDelay
