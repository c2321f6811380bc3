import VerifiableDelay.Proofs.Proof.Piece
/-!
# Window slots alias only as designed

What a layout gives a slot is what its levels store, and a slot is shared by
checkpoints of one level, at one place in their segments, whole windows
apart, and by no others. The stride of a level need not divide its segments:
the last checkpoint of one may be less than a stride from the next, which has
slots of its own. A prover reads the checkpoints of its segment on that
stride, so **every read it makes has a slot**
(`Segmented.slots_alias_by_window`), as long as the slots are counted in a word.
-/

namespace VerifiableDelay

namespace Rolling

/-- What the levels store has a slot, and nothing else does. -/
theorem exists_slot_iff (r : Rolling) (i level : Nat) :
    (∃ slot, (Layout.rolling r).slot i level = .ok slot) ↔
      level < r.levels ∧ r.IsStored i level := by
  simp only [Layout.slot_eq_ok_iff, Layout.slot?, slot?_eq_some_iff, exists_and_left, exists_eq,
    and_true]

end Rolling

namespace Segmented

variable {o : Overflow} {r : Rolling} {recorder : RollingRecorder} {p : Piece}
variable {k : Look RollingRecorder} {d : Discriminant} {batchSize i n : Nat}

/-- **A row that a prover reads has a slot.** -/
theorem exists_slot_of_lt_rows (limit : Nat) (hlayout : recorder.layout = r)
    (hlevel : p.level < r.levels)
    (hi : i < (Parameters.ofLevel p.level).rows (r.segmentLength p.level)) :
    ∃ slot, (view recorder limit p).layout.slot
      ((view recorder limit p).start + i * (view recorder limit p).stride) p.level =
        .ok slot := by
  subst hlayout
  rw [Parameters.lt_rows_iff, Nat.mul_comm] at hi
  exact (Rolling.exists_slot_iff _ _ _).2 ⟨hlevel, Rolling.isStored_add_mul p.index hi⟩

/-- So no prover fails for want of a slot. -/
theorem segmentAt_ne_noSlot (hopened : k.opened.listening.layout = r)
    (htaken : ∀ i, (k.taken i).listening.layout = r) (hlevel : p.level < r.levels) :
    segmentAt o d batchSize k p ≠ .error (.noSlot n) := by
  intro h
  rcases error_cases_of_segmentAt h with
    ⟨j, hcause⟩ | hcause | ⟨limit, -, ⟨⟨j, hcause⟩, -⟩ | hcause | ⟨i, hi, hread⟩⟩
  · cases hcause
  · cases hcause
  · cases hcause
  · cases hcause
  · -- a read is refused so only where the layout has no slot, and here it has one
    rw [hopened] at hi
    obtain ⟨slot, hslot⟩ := exists_slot_of_lt_rows limit (htaken i) hlevel hi
    rw [Layout.slot_eq_ok_iff] at hslot
    rcases View.error_cases_of_read hread with ⟨hnone, -⟩ | hcause | ⟨hcause, -⟩
    · cases hslot.symm.trans hnone
    · cases hcause
    · cases hcause

/-- **Window slots alias only as designed.** In every layout with a window
whose slots are counted in a word, for every level it has: exactly the
iterations that the level stores have a slot, and it is one of those there
are. Two of them have one slot if and only if they are of one level, at one
place in their segments, and the numbers of these segments are congruent by
the window. Every iteration of a segment that is on the level's stride from
its start is stored. So every row that the prover of a segment reads has a
slot, and at whatever moments of whatever run it reads them, it never fails
for want of one. -/
theorem slots_alias_by_window (r : Rolling) (hfits : r.Fits) (hwindow : 0 < r.window) :
    (∀ i level, (∃ slot, (Layout.rolling r).slot i level = .ok slot) ↔
      level < r.levels ∧ r.IsStored i level) ∧
    (∀ i level slot, (Layout.rolling r).slot i level = .ok slot → slot < r.totalSlots) ∧
    (∀ i j level level' slot slot', (Layout.rolling r).slot i level = .ok slot →
      (Layout.rolling r).slot j level' = .ok slot' →
      (slot = slot' ↔ level = level' ∧
        i % r.segmentLength level = j % r.segmentLength level' ∧
        i / r.segmentLength level ≡ j / r.segmentLength level' [MOD r.window])) ∧
    (∀ index m level, m * Rolling.stride level < r.segmentLength level →
      r.IsStored (index * r.segmentLength level + m * Rolling.stride level) level) ∧
    ∀ p : Piece, p.level < r.levels →
      (∀ (recorder : RollingRecorder) (limit i : Nat), recorder.layout = r →
        i < (Parameters.ofLevel p.level).rows (r.segmentLength p.level) →
        ∃ slot < r.totalSlots, (view recorder limit p).layout.slot
          ((view recorder limit p).start + i * (view recorder limit p).stride) p.level =
            .ok slot) ∧
      ∀ (o : Overflow) (d : Discriminant) (batchSize n : Nat) (k : Look RollingRecorder),
        k.opened.listening.layout = r → (∀ i, (k.taken i).listening.layout = r) →
        segmentAt o d batchSize k p ≠ .error (.noSlot n) := by
  have hbelow : ∀ i level slot, (Layout.rolling r).slot i level = .ok slot →
      slot < r.totalSlots := by
    intro i level slot hslot
    exact Rolling.slot_lt_totalSlots hfits hwindow (Layout.slot_eq_ok_iff.1 hslot)
  refine ⟨r.exists_slot_iff, hbelow, fun i j level level' slot slot' hi hj => ?_,
    fun index m level hm => Rolling.isStored_add_mul index hm, fun p hlevel => ⟨?_, ?_⟩⟩
  · exact Rolling.slot_eq_iff hfits hwindow (Layout.slot_eq_ok_iff.1 hi)
      (Layout.slot_eq_ok_iff.1 hj)
  · rintro recorder limit i rfl hi
    obtain ⟨slot, hslot⟩ := exists_slot_of_lt_rows limit rfl hlevel hi
    exact ⟨slot, hbelow _ _ slot hslot, hslot⟩
  · intro o d batchSize n k hopened htaken
    exact segmentAt_ne_noSlot hopened htaken hlevel

/-- Three levels of segments of 256 squarings and more, with a window of four. -/
def layout843 : Rolling := { baseBits := 8, window := 4, levels := 3 }

/-- The first checkpoint of the fifth segment has the slot of the run's first,
the last of the first segment, six squarings before the second, does not have
that one's, and the last row that is read of the second segment of the third
level has a slot. -/
theorem slots_alias_by_window_8_4_3 :
    (∃ slot, (Layout.rolling layout843).slot 0 0 = .ok slot ∧
      (Layout.rolling layout843).slot 1024 0 = .ok slot) ∧
    (∃ slot slot', (Layout.rolling layout843).slot 250 0 = .ok slot ∧
      (Layout.rolling layout843).slot 256 0 = .ok slot' ∧ slot ≠ slot') ∧
    ∃ slot < layout843.totalSlots,
      (Layout.rolling layout843).slot (1 * 4096 + 85 * 48) 2 = .ok slot := by
  obtain ⟨hstored, hbelow, halias, hstride, -⟩ :=
    slots_alias_by_window layout843 (by decide) (by decide)
  obtain ⟨first, hfirst⟩ := (hstored 0 0).2 (by decide)
  obtain ⟨again, hagain⟩ := (hstored 1024 0).2 (by decide)
  obtain ⟨last, hlast⟩ := (hstored 250 0).2 (by decide)
  obtain ⟨next, hnext⟩ := (hstored 256 0).2 (by decide)
  obtain ⟨row, hrow⟩ := (hstored _ 2).2 ⟨by decide, hstride 1 85 2 (by decide)⟩
  have hsame : first = again := (halias 0 1024 0 0 _ _ hfirst hagain).2 (by decide)
  have hother : last ≠ next := fun heq =>
    absurd ((halias 250 256 0 0 _ _ hlast hnext).1 heq) (by decide)
  exact ⟨⟨first, hfirst, hsame ▸ hagain⟩, ⟨last, next, hlast, hnext, hother⟩,
    row, hbelow _ _ row hrow, hrow⟩

end Segmented

end VerifiableDelay
