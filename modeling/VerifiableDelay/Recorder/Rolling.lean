import VerifiableDelay.Checkpoint.Archive
import VerifiableDelay.Checkpoint.Layout
import VerifiableDelay.Run.Listener
import VerifiableDelay.Settings
/-!
# Recording segments

Every level keeps the checkpoints of its segments in a rolling window, and
the forms at the ends of the shortest segments are kept for good, as many as
there is room for.
-/

namespace VerifiableDelay

/-- The windows that the settings ask for. -/
def Rolling.ofSettings (s : Settings) : Rolling where
  baseBits := s.baseBits
  window := s.window
  levels := s.levels
  baseBits_halfWord := s.baseBits_halfWord
  window_word := s.window_word
  levels_word := s.levels_word

/-- What is recorded of a run proven segment by segment. -/
structure RollingRecorder where
  layout : Rolling
  archive : Archive
  /-- The forms between the shortest segments. -/
  ends : Store

namespace RollingRecorder

/-- Keeps the checkpoint of a level, if it has one here. -/
def keep (f : Form) (iteration : Nat) (layout : Rolling) (archive : Archive) (level : Nat) :
    Archive :=
  if layout.IsStored iteration level then archive.keep (layout.slot? iteration level) f
  else archive

/-- Keeps an end of shortest segments, if it is one. -/
def keepEnd (r : RollingRecorder) (f : Form) (iteration : Nat) : RollingRecorder :=
  let length := r.layout.segmentLength 0
  if iteration % length = 0 then
    match r.ends.set (iteration / length) f with
    | .ok ends => { r with ends }
    | .error _ => { r with archive := { r.archive with full := true } }
  else r

/-- Takes the form after `iteration` squarings. -/
def deliver (r : RollingRecorder) (f : Form) (iteration : Nat) : RollingRecorder :=
  let archive := (List.range r.layout.levels).foldl (keep f iteration r.layout) r.archive
  keepEnd { r with archive } f iteration

/-- Nothing recorded yet. -/
def empty (s : Settings) : RollingRecorder where
  layout := .ofSettings s
  archive := { store := { capacity := (Rolling.ofSettings s).totalSlots } }
  ends := { capacity := s.maxCheckpoints }

/-- Before the first squaring. The slots of the levels are summed up first, and
a build that checks its sums stops if they leave their word. -/
def start (o : Overflow) (s : Settings) (x : Form) : Except DelayError RollingRecorder := do
  s.validate o
  let _ ← o.word ((Rolling.ofSettings s).slotsBelow s.levels)
  return (empty s).deliver x 0

/-- What to do at the end of a batch. -/
def boundary (r : RollingRecorder) : Boundary := if r.archive.full then .halt else .proceed

/-- The recorder as a listener. -/
def listener : Listener RollingRecorder where
  deliver := deliver
  boundary r _ _ := (r, r.boundary)

/-- The form between shortest segments number `n - 1` and `n`. -/
def end? (r : RollingRecorder) (n : Nat) : Option Form := r.ends.get? n

end RollingRecorder

end VerifiableDelay
