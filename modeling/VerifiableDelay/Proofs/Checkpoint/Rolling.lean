import VerifiableDelay.Checkpoint.Rolling
/-!
# The slots of rolling windows

Levels have ranges of slots of their own, so **two checkpoints with one slot
are of one level, at one place in their segments, and a whole number of
windows apart** (`Rolling.eq_of_slot?_eq`). Within a window of a checkpoint
no other of its level has its slot. All of this is about layouts whose slots
are counted in a word (`Rolling.Fits`). In others two levels can share slots,
where a build goes on with what is left of the numbers.
-/

namespace VerifiableDelay

namespace Rolling

variable {r : Rolling} {i j level level' slot : Nat}

theorem slot?_eq_some_iff :
    r.slot? i level = some slot ↔
      level < r.levels ∧ r.IsStored i level ∧
        slot = (r.slotsBelow level + r.slotOfLevel i level) % wordCount := by
  unfold slot?
  split
  · rename_i h
    rw [Option.some_inj]
    exact ⟨fun he => ⟨h.1, h.2, he.symm⟩, fun he => he.2.2.symm⟩
  · rename_i h
    refine ⟨fun he => (by cases he), fun he => ?_⟩
    exact absurd ⟨he.1, he.2.1⟩ h

theorem offset_lt_slots (r : Rolling) (i level : Nat) :
    i % r.segmentLength level / stride level < r.slots level := by
  have hlt := Nat.mod_lt i (r.segmentLength_pos level)
  exact Nat.lt_succ_of_le (Nat.div_le_div_right (Nat.le_of_lt hlt))

/-- Of a slot of a level, quotient and remainder by the slots of a segment are
the segment's place in the window and the checkpoint's in the segment. -/
theorem slotOfLevel_div_mod (r : Rolling) (i level : Nat) :
    r.slotOfLevel i level / r.slots level = i / r.segmentLength level % r.window ∧
      r.slotOfLevel i level % r.slots level = i % r.segmentLength level / stride level := by
  have hpos : 0 < r.slots level := Nat.succ_pos _
  refine (Nat.div_mod_unique hpos).2 ⟨?_, r.offset_lt_slots i level⟩
  rw [slotOfLevel, Nat.mul_comm, Nat.add_comm]

/-- A level's slots are as many as its window and its segments need. -/
theorem slotOfLevel_lt (hwindow : 0 < r.window) (i level : Nat) :
    r.slotOfLevel i level < r.slots level * r.window := by
  have hindex := Nat.mod_lt (i / r.segmentLength level) hwindow
  have hoffset := r.offset_lt_slots i level
  have hmul := Nat.mul_le_mul_right (r.slots level) (Nat.succ_le_of_lt hindex)
  rw [Nat.succ_mul] at hmul
  rw [slotOfLevel, Nat.mul_comm (r.slots level)]
  omega

theorem slotsBelow_mono (h : level ≤ level') : r.slotsBelow level ≤ r.slotsBelow level' := by
  induction h with
  | refl => exact Nat.le_refl _
  | step _ ih => exact Nat.le_trans ih (Nat.le_add_right _ _)

/-- The slots of a level come before those of the levels above. -/
theorem slotsBelow_add_lt (hwindow : 0 < r.window) (h : level < level') (i : Nat) :
    r.slotsBelow level + r.slotOfLevel i level < r.slotsBelow level' := by
  have hmono : r.slotsBelow (level + 1) ≤ r.slotsBelow level' := slotsBelow_mono h
  have hlt := slotOfLevel_lt hwindow i level
  rw [slotsBelow] at hmono
  omega

theorem Fits.totalSlots_eq (hfits : r.Fits) : r.totalSlots = r.slotsBelow r.levels :=
  Nat.mod_eq_of_lt hfits

/-- **Where the slots are counted in a word** a slot is at its place among those
of its level, after those of the levels below. -/
theorem Fits.slot_eq (hfits : r.Fits) (hwindow : 0 < r.window)
    (h : r.slot? i level = some slot) : slot = r.slotsBelow level + r.slotOfLevel i level := by
  obtain ⟨hlevel, -, rfl⟩ := slot?_eq_some_iff.1 h
  exact Nat.mod_eq_of_lt (Nat.lt_trans (slotsBelow_add_lt hwindow hlevel i) hfits)

/-- **Every slot is one there is.** -/
theorem slot_lt_totalSlots (hfits : r.Fits) (hwindow : 0 < r.window)
    (h : r.slot? i level = some slot) : slot < r.totalSlots := by
  rw [hfits.slot_eq hwindow h, hfits.totalSlots_eq]
  exact slotsBelow_add_lt hwindow (slot?_eq_some_iff.1 h).1 i

/-- A whole number of windows on a slot is used again. -/
theorem slot?_add_windows (r : Rolling) (i level n : Nat) :
    r.slot? (i + n * (r.window * r.segmentLength level)) level = r.slot? i level := by
  have hmod : (i + n * (r.window * r.segmentLength level)) % r.segmentLength level =
      i % r.segmentLength level := by
    rw [← Nat.mul_assoc, Nat.add_mul_mod_self_right]
  have hdiv : (i + n * (r.window * r.segmentLength level)) / r.segmentLength level % r.window =
      i / r.segmentLength level % r.window := by
    rw [← Nat.mul_assoc, Nat.add_mul_div_right _ _ (r.segmentLength_pos level),
      Nat.add_mul_mod_self_right]
  refine Option.ext fun slot => ?_
  simp only [slot?_eq_some_iff, IsStored, slotOfLevel, hmod, hdiv]

/-- **Two checkpoints with one slot** are of one level, at one place in their
segments, and a whole number of windows apart. -/
theorem eq_of_slot?_eq (hfits : r.Fits) (hwindow : 0 < r.window)
    (hi : r.slot? i level = some slot) (hj : r.slot? j level' = some slot) :
    level = level' ∧ i % r.segmentLength level = j % r.segmentLength level ∧
      i / r.segmentLength level % r.window = j / r.segmentLength level % r.window := by
  obtain ⟨-, hstoredi, -⟩ := slot?_eq_some_iff.1 hi
  obtain ⟨-, hstoredj, -⟩ := slot?_eq_some_iff.1 hj
  have hsloti := hfits.slot_eq hwindow hi
  have hslotj := hfits.slot_eq hwindow hj
  have hlevel : level = level' := by
    rcases Nat.lt_trichotomy level level' with h | h | h
    · have := slotsBelow_add_lt hwindow h i
      omega
    · exact h
    · have := slotsBelow_add_lt hwindow h j
      omega
  subst hlevel
  have hsame : r.slotOfLevel i level = r.slotOfLevel j level := by omega
  obtain ⟨hindexi, hoffseti⟩ := r.slotOfLevel_div_mod i level
  obtain ⟨hindexj, hoffsetj⟩ := r.slotOfLevel_div_mod j level
  rw [hsame] at hindexi hoffseti
  have hoffset := hoffseti.symm.trans hoffsetj
  refine ⟨rfl, ?_, hindexi.symm.trans hindexj⟩
  have hplacei := Nat.div_add_mod (i % r.segmentLength level) (stride level)
  have hplacej := Nat.div_add_mod (j % r.segmentLength level) (stride level)
  rw [hstoredi, hoffset] at hplacei
  rw [hstoredj] at hplacej
  exact hplacei.symm.trans hplacej

/-- It takes that the slots are counted in a word: in a window of `2 ^ 63 + 2`
segments those of the first level come round to where the next begins. -/
example : { baseBits := 8, window := 2 ^ 63 + 2, levels := 2 : Rolling }.slot? 512 0 = some 52 ∧
    { baseBits := 8, window := 2 ^ 63 + 2, levels := 2 : Rolling }.slot? 0 1 = some 52 := by
  decide

/-- And such checkpoints have one slot. -/
theorem slot_eq_iff {slot' : Nat} (hfits : r.Fits) (hwindow : 0 < r.window)
    (hi : r.slot? i level = some slot) (hj : r.slot? j level' = some slot') :
    slot = slot' ↔ level = level' ∧ i % r.segmentLength level = j % r.segmentLength level' ∧
      i / r.segmentLength level % r.window = j / r.segmentLength level' % r.window := by
  constructor
  · rintro rfl
    obtain ⟨rfl, hplace⟩ := eq_of_slot?_eq hfits hwindow hi hj
    exact ⟨rfl, hplace⟩
  · rintro ⟨rfl, hoffset, hindex⟩
    obtain ⟨-, -, rfl⟩ := slot?_eq_some_iff.1 hi
    obtain ⟨-, -, rfl⟩ := slot?_eq_some_iff.1 hj
    rw [slotOfLevel, slotOfLevel, hoffset, hindex]

/-- **A segment's iterations on the stride of its level are stored**, the last
of them as well, which may be less than a stride from the next segment. -/
theorem isStored_add_mul (index : Nat) (hi : i * stride level < r.segmentLength level) :
    r.IsStored (index * r.segmentLength level + i * stride level) level := by
  rw [IsStored, Nat.mul_add_mod', Nat.mod_eq_of_lt hi]
  exact Nat.mul_mod_left _ _

/-- **Within a window a slot is not used again.** -/
theorem eq_of_slot?_eq_of_lt (hfits : r.Fits) (hwindow : 0 < r.window)
    (hi : r.slot? i level = some slot) (hj : r.slot? j level' = some slot) (hle : i ≤ j)
    (hlt : j < i + r.window * r.segmentLength level) : i = j := by
  obtain ⟨-, hoffset, hindex⟩ := eq_of_slot?_eq hfits hwindow hi hj
  have hindexle : i / r.segmentLength level ≤ j / r.segmentLength level := Nat.div_le_div_right hle
  have hindexlt : j / r.segmentLength level < i / r.segmentLength level + r.window := by
    refine Nat.lt_of_mul_lt_mul_left (a := r.segmentLength level) ?_
    have hspliti := Nat.div_add_mod i (r.segmentLength level)
    have hsplitj := Nat.div_add_mod j (r.segmentLength level)
    rw [Nat.mul_add, Nat.mul_comm _ r.window]
    omega
  have hsame : i / r.segmentLength level = j / r.segmentLength level := by
    have hzero := Nat.sub_mod_eq_zero_of_mod_eq hindex.symm
    rw [Nat.mod_eq_of_lt (by omega)] at hzero
    omega
  rw [← Nat.div_add_mod i (r.segmentLength level), hsame, hoffset, Nat.div_add_mod]

end Rolling

end VerifiableDelay
