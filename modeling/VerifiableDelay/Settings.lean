import VerifiableDelay.Overflow
/-!
# Settings

What can be chosen about a run: how the squaring loop works in batches, how
long its waiters are patient, and how much room there is for checkpoints.
The relations that the layouts of checkpoints rely on are checked before
anything is started. One of them is about a product, the length of a window of
the shortest segments, which need not be a word.
-/

namespace VerifiableDelay

-- powers of natural numbers are those of the core library
attribute [local instance (high)] instPowNat

/-- The settings of a run, each of them a word. Times are in milliseconds. -/
structure Settings where
  /-- Squarings asked of a fast path at once. -/
  batchSize : Nat := 10000
  /-- How long a waiter stands a count that does not move. -/
  stallTimeout : Nat := 60000
  /-- How often a waiter looks whether it is stopped. -/
  pollInterval : Nat := 100
  /-- Segments of a level that keep their checkpoints. -/
  window : Nat := 20
  /-- Levels of segments. -/
  levels : Nat := 8
  /-- The shortest segments have `2 ^ baseBits` iterations. -/
  baseBits : Nat := 16
  /-- Checkpoints kept at the ends of the shortest segments. -/
  maxCheckpoints : Nat := 262144
  /-- From where on a run of unknown length may widen its stride. -/
  switchIterations : Nat := 91000000
  /-- Iterations that a run of unknown length has room for. -/
  maxIterations : Nat := 800000000
  /-- Iterations before the last that such a run halts. -/
  haltMargin : Nat := 500000
  /-- Threads that prove segments, or `0` to leave it open. -/
  proverThreads : Nat := 0
  batchSize_word : isWord batchSize := by exact Eq.refl true
  stallTimeout_word : isWord stallTimeout := by exact Eq.refl true
  pollInterval_word : isWord pollInterval := by exact Eq.refl true
  window_word : isWord window := by exact Eq.refl true
  levels_word : isWord levels := by exact Eq.refl true
  /-- A shift by this many bits is counted in half a word. -/
  baseBits_halfWord : isHalfWord baseBits := by exact Eq.refl true
  maxCheckpoints_word : isWord maxCheckpoints := by exact Eq.refl true
  switchIterations_word : isWord switchIterations := by exact Eq.refl true
  maxIterations_word : isWord maxIterations := by exact Eq.refl true
  haltMargin_word : isWord haltMargin := by exact Eq.refl true
  proverThreads_word : isWord proverThreads := by exact Eq.refl true
  deriving Repr, DecidableEq

namespace Settings

/-- Iterations of a shortest segment. -/
def baseLength (s : Settings) : Nat := 2 ^ s.baseBits

/-- What the checks stop at, the first thing if there are several. The length
of a window is only worked out where the checks before let it through: a build
that stops where it leaves its word does so there, and one that does not
compares what is left of it with the batch. -/
def fault? (o : Overflow) (s : Settings) : Option DelayError :=
  if s.batchSize = 0 then some (.settings .batchZero)
  else if s.baseBits < 6 ∨ 40 < s.baseBits then some (.settings .baseBits)
  else if s.levels = 0 ∨ 12 < s.levels then some (.settings .levels)
  else if s.window < 2 then some (.settings .window)
  else
    match o.word (s.window * s.baseLength) with
    | .error e => some e
    | .ok room =>
      if room ≤ s.batchSize then some (.settings .batchTooLong)
      else if s.switchIterations % 100 ≠ 0 ∨ s.maxIterations ≤ s.switchIterations then
        some (.settings .switchPoint)
      else if s.maxIterations - s.switchIterations ≤ s.haltMargin then some (.settings .haltMargin)
      else if s.pollInterval = 0 then some (.settings .pollZero)
      else none

/-- Refuses settings that are at fault. -/
def validate (o : Overflow) (s : Settings) : Except DelayError Unit :=
  match s.fault? o with
  | some e => .error e
  | none => .ok ()

/-- **What the layouts rely on.** -/
structure Valid (o : Overflow) (s : Settings) : Prop where
  batchSize_pos : 0 < s.batchSize
  baseBits_range : 6 ≤ s.baseBits ∧ s.baseBits ≤ 40
  levels_range : 0 < s.levels ∧ s.levels ≤ 12
  two_le_window : 2 ≤ s.window
  /-- What the build has for the length of a window is more than a batch. -/
  room : ∃ room, o.word (s.window * s.baseLength) = .ok room ∧ s.batchSize < room
  switch_mod : s.switchIterations % 100 = 0
  switch_lt : s.switchIterations < s.maxIterations
  haltMargin_lt : s.haltMargin < s.maxIterations - s.switchIterations
  pollInterval_pos : 0 < s.pollInterval

/-- **A batch is shorter than a window**, also where the length of the window
is not a word. -/
theorem Valid.batchSize_lt {o : Overflow} {s : Settings} (h : s.Valid o) :
    s.batchSize < s.window * s.baseLength := by
  obtain ⟨room, hroom, hlt⟩ := h.room
  exact Nat.lt_of_lt_of_le hlt (Overflow.le_of_word hroom)

/-- A check lets the settings through if its fault is absent and the checks
after it let them through. -/
theorem check_eq_none_iff {fault : Prop} [Decidable fault] {cause : DelayError}
    {rest : Option DelayError} :
    (if fault then some cause else rest) = none ↔ ¬ fault ∧ rest = none := by
  by_cases h : fault <;> simp [h]

/-- Nothing is at fault exactly if all of it holds. -/
theorem fault?_eq_none_iff (o : Overflow) (s : Settings) : s.fault? o = none ↔ s.Valid o := by
  simp only [fault?, check_eq_none_iff]
  constructor
  · rintro ⟨batch, bits, levels, window, rest⟩
    split at rest
    · cases rest
    · rename_i room hroom
      simp only [check_eq_none_iff] at rest
      obtain ⟨length, switch, margin, poll, -⟩ := rest
      exact ⟨by omega, by omega, by omega, by omega, ⟨room, hroom, by omega⟩, by omega, by omega,
        by omega, by omega⟩
  · intro h
    obtain ⟨batch, bits, levels, window, ⟨room, hroom, length⟩, aligned, switch, margin, poll⟩ := h
    rw [hroom]
    simp only [check_eq_none_iff]
    exact ⟨by omega, by omega, by omega, by omega, by omega, by omega, by omega, by omega,
      trivial⟩

theorem validate_eq_ok_iff (o : Overflow) (s : Settings) : s.validate o = .ok () ↔ s.Valid o := by
  rw [← fault?_eq_none_iff, validate]
  split <;> simp_all

end Settings

end VerifiableDelay
