import VerifiableDelay.Proof.Segmented
import Mathlib.Data.Nat.ModEq
import Mathlib.Tactic.Ring
/-!
# A plan is the shortest tiling

There is a plan as long as one of the longest segments more would end at a word
(`Segmented.exists_plan_iff`). Its pieces lie end to end (`Segmented.Spans`) and
cover what is planned for. Four pieces of a level make one of the next, so the longest first
is best: no pieces whose lengths add up to as much are fewer
(`Segmented.fewest_sum_le`), and **none that lie end to end are**
(`Segmented.length_plan_le`). A request takes the plan as a list of work: a piece
that is found is collected, and one that is lost makes room for the four it is
made of, ahead of all that is pending. `Segmented.Collects` says where that ends,
which is with what is resolved (`Segmented.resolveAll_eq_ok_iff`).
-/

namespace VerifiableDelay

namespace Segmented

variable {layout : Rolling} {pieces others pending : List Piece}
variable {a b c n q level levels index count position aligned : Nat}

/-! ## Pieces that lie end to end -/

/-- **The pieces span the stretch** from `a` to `b` squarings: each is of a level
there is, and begins where the one before it ends. -/
def Spans (layout : Rolling) : (a : Nat) → List Piece → (b : Nat) → Prop
  | a, [], b => a = b
  | a, p :: rest, b => p.level < layout.levels ∧ p.index * layout.segmentLength p.level = a ∧
      Spans layout ((p.index + 1) * layout.segmentLength p.level) rest b

theorem spans_append (h : Spans layout a pieces b) (h' : Spans layout b others c) :
    Spans layout a (pieces ++ others) c := by
  induction pieces generalizing a with
  | nil => exact (show a = b from h) ▸ h'
  | cons p pieces ih => exact ⟨h.1, h.2.1, ih h.2.2⟩

/-- Pieces of one level in a row. -/
theorem spans_range (hlevel : level < layout.levels) (index count : Nat) :
    Spans layout (index * layout.segmentLength level)
      ((List.range count).map fun i => ⟨level, index + i⟩)
      ((index + count) * layout.segmentLength level) := by
  induction count with
  | zero => rfl
  | succ count ih =>
    rw [List.range_succ, List.map_append]
    exact spans_append ih ⟨hlevel, rfl, rfl⟩

/-- The shortest pieces alone span what is aligned. -/
theorem exists_spans (hlevels : 0 < layout.levels) (haligned : layout.segmentLength 0 ∣ aligned) :
    ∃ pieces, Spans layout 0 pieces aligned := by
  obtain ⟨count, rfl⟩ := haligned
  have hrow := spans_range hlevels 0 count
  rw [Nat.zero_mul, Nat.zero_add, Nat.mul_comm] at hrow
  exact ⟨_, hrow⟩

/-! ## When there is a plan -/

theorem row_eq_overflow (h : wordCount ≤ position + layout.segmentLength level) :
    row layout aligned level position = .error .overflow := by
  rw [row]
  exact if_pos h

/-- A row ends where there is no room for one more. -/
theorem row_last (hword : position + layout.segmentLength level < wordCount)
    (hlast : aligned < position + layout.segmentLength level) :
    row layout aligned level position = .ok ([], position) := by
  rw [row]
  simp only [if_neg (Nat.not_le.2 hword), if_neg (Nat.not_le.2 hlast)]

/-- It goes on while there is. -/
theorem row_next (hword : position + layout.segmentLength level < wordCount)
    (hroom : position + layout.segmentLength level ≤ aligned) :
    row layout aligned level position = (do
      let (rest, last) ← row layout aligned level (position + layout.segmentLength level)
      return (⟨level, position / layout.segmentLength level⟩ :: rest, last)) := by
  rw [row]
  simp only [if_neg (Nat.not_le.2 hword), if_pos hroom]

theorem mul_succ_le_roundDown (h : aligned / layout.segmentLength level = index + (count + 1)) :
    index * layout.segmentLength level + layout.segmentLength level ≤
      roundDown aligned (layout.segmentLength level) := by
  rw [← Nat.succ_mul, roundDown_eq_div_mul, h]
  exact Nat.mul_le_mul_right _ (by omega)

/-- **A row from number `index` on** has as many pieces as end by `aligned`, if
the end of one more is a word. -/
theorem row_mul_eq (hword : roundDown aligned (layout.segmentLength level) +
      layout.segmentLength level < wordCount)
    (h : aligned / layout.segmentLength level = index + count) :
    row layout aligned level (index * layout.segmentLength level) =
      .ok ((List.range count).map fun i => ⟨level, index + i⟩,
        roundDown aligned (layout.segmentLength level)) := by
  have hpos := layout.segmentLength_pos level
  induction count generalizing index with
  | zero =>
    have hlast : roundDown aligned (layout.segmentLength level) =
        index * layout.segmentLength level := by
      rw [roundDown_eq_div_mul, h, Nat.add_zero]
    have hend := Nat.lt_div_mul_add (a := aligned) hpos
    rw [← roundDown_eq_div_mul, hlast] at hend
    rw [hlast] at hword ⊢
    exact row_last hword hend
  | succ count ih =>
    have hroom := mul_succ_le_roundDown h
    have hle := roundDown_le aligned (layout.segmentLength level)
    have hnext : aligned / layout.segmentLength level = index + 1 + count := by omega
    have hrest := ih hnext
    rw [Nat.succ_mul] at hrest
    rw [row_next (by omega) (hroom.trans hle), hrest, Nat.mul_div_cancel index hpos,
      List.range_succ_eq_map]
    simp only [List.map_cons, List.map_map, Nat.add_zero]
    refine congrArg (fun rest => Except.ok (_ :: rest, _)) (List.map_congr_left fun i _ => ?_)
    simp [Nat.add_assoc, Nat.add_comm 1]

/-- If it is none, the row leaves its word, at its end at the latest. -/
theorem row_mul_eq_overflow (hword : wordCount ≤
      roundDown aligned (layout.segmentLength level) + layout.segmentLength level)
    (h : aligned / layout.segmentLength level = index + count) :
    row layout aligned level (index * layout.segmentLength level) = .error .overflow := by
  induction count generalizing index with
  | zero =>
    rw [roundDown_eq_div_mul, h, Nat.add_zero] at hword
    exact row_eq_overflow hword
  | succ count ih =>
    rcases Nat.lt_or_ge (index * layout.segmentLength level + layout.segmentLength level)
      wordCount with hnext | hnext
    · have hroom := mul_succ_le_roundDown h
      have hsucc : aligned / layout.segmentLength level = index + 1 + count := by omega
      have hrest := ih hsucc
      rw [Nat.succ_mul] at hrest
      rw [row_next hnext (hroom.trans (roundDown_le _ _)), hrest]
      rfl
    · exact row_eq_overflow hnext

/-- From a position on, the number of the first piece and how many follow it. -/
theorem div_eq_add_div_sub (hdvd : layout.segmentLength level ∣ position)
    (hle : position ≤ aligned) :
    aligned / layout.segmentLength level = position / layout.segmentLength level +
      (aligned - position) / layout.segmentLength level := by
  rw [← Nat.add_div_of_dvd_right hdvd, Nat.add_sub_cancel' hle]

/-- **A plan level by level**: its longest segments in a row, and what the
levels below have for the rest. -/
theorem planFrom_succ_eq_ok_iff (hdvd : layout.segmentLength level ∣ position)
    (hle : position ≤ aligned) :
    planFrom layout aligned (level + 1) position = .ok pieces ↔
      roundDown aligned (layout.segmentLength level) + layout.segmentLength level < wordCount ∧
      ∃ rest, planFrom layout aligned level (roundDown aligned (layout.segmentLength level)) =
          .ok rest ∧
        ((List.range ((aligned - position) / layout.segmentLength level)).map fun i =>
          ⟨level, position / layout.segmentLength level + i⟩) ++ rest = pieces := by
  have hcount := div_eq_add_div_sub hdvd hle
  rw [planFrom]
  rcases Nat.lt_or_ge (roundDown aligned (layout.segmentLength level) +
    layout.segmentLength level) wordCount with hword | hword
  · have hrow := row_mul_eq hword hcount
    rw [Nat.div_mul_cancel hdvd] at hrow
    rw [hrow]
    simp only [bind_eq_ok_iff, pure_eq_ok_iff, Except.ok.injEq, exists_eq_left', hword, true_and]
  · have hrow := row_mul_eq_overflow hword hcount
    rw [Nat.div_mul_cancel hdvd] at hrow
    rw [hrow]
    simp only [bind_eq_ok_iff, reduceCtorEq, false_and, exists_const, Nat.not_lt.2 hword]

/-- Iterations of the longest segments there are. -/
def longest (layout : Rolling) : Nat := layout.segmentLength (layout.levels - 1)

/-- Where one of the longest more is still in its word there is a plan: so it
is on all levels below. -/
theorem exists_planFrom (hword : aligned + layout.segmentLength level < wordCount)
    (hlevels : levels ≤ level + 1) (hdvd : layout.segmentLength levels ∣ position)
    (hle : position ≤ aligned) :
    ∃ pieces, planFrom layout aligned levels position = .ok pieces := by
  induction levels generalizing position with
  | zero => exact ⟨[], rfl⟩
  | succ top ih =>
    rw [Rolling.segmentLength_succ] at hdvd
    have hrow : layout.segmentLength top ≤ layout.segmentLength level :=
      Nat.pow_le_pow_right (by decide) (by omega)
    have hlast := roundDown_le aligned (layout.segmentLength top)
    obtain ⟨rest, hrest⟩ := ih (by omega) (dvd_roundDown aligned (layout.segmentLength top)) hlast
    exact ⟨_, (planFrom_succ_eq_ok_iff (dvd_of_mul_left_dvd hdvd) hle).2
      ⟨by omega, rest, hrest, rfl⟩⟩

/-- **There is a plan exactly if one of the longest segments more ends at a
word**, in a layout that has a level. -/
theorem exists_plan_iff (hlevels : 0 < layout.levels) :
    (∃ pieces, plan layout aligned = .ok pieces) ↔ aligned + longest layout < wordCount := by
  obtain ⟨top, htop⟩ := Nat.exists_eq_succ_of_ne_zero hlevels.ne'
  rw [plan, longest, htop, Nat.succ_sub_one]
  constructor
  · rintro ⟨pieces, hpieces⟩
    by_contra hlong
    have hrow := ((planFrom_succ_eq_ok_iff (dvd_zero _) (Nat.zero_le _)).1 hpieces).1
    exact Nat.not_le.2 hrow (wordCount_le_roundDown_add (Nat.not_lt.1 hlong))
  · exact fun hword => exists_planFrom hword le_rfl (dvd_zero _) (Nat.zero_le _)

/-- A row that does not end has left its word. -/
theorem row_eq_error {error : DelayError} (h : row layout aligned level position = .error error) :
    error = .overflow := by
  fun_induction row layout aligned level position with
  | case1 position length hword => exact (Except.error.inj h).symm
  | case2 position length hword hroom ih =>
    rcases bind_eq_error_iff.1 h with hrest | ⟨_, -, hnone⟩
    · exact ih hrest
    · cases hnone
  | case3 position length hword hroom => cases h

theorem planFrom_eq_error {error : DelayError}
    (h : planFrom layout aligned levels position = .error error) : error = .overflow := by
  induction levels generalizing position with
  | zero => cases h
  | succ level ih =>
    rcases bind_eq_error_iff.1 h with hrow | ⟨_, -, hrest⟩
    · exact row_eq_error hrow
    · rcases bind_eq_error_iff.1 hrest with hbelow | ⟨_, -, hnone⟩
      · exact ih hbelow
      · cases hnone

/-- **Where there is no plan**, a sum has left its word. -/
theorem plan_eq_overflow_iff (hlevels : 0 < layout.levels) :
    plan layout aligned = .error .overflow ↔ wordCount ≤ aligned + longest layout := by
  rw [← Nat.not_lt, ← exists_plan_iff hlevels]
  constructor
  · rintro hnone ⟨pieces, hpieces⟩
    cases hnone.symm.trans hpieces
  · intro hnone
    cases hplan : plan layout aligned with
    | ok pieces => exact absurd ⟨pieces, hplan⟩ hnone
    | error error => rw [planFrom_eq_error hplan]

/-! ## What a plan spans -/

/-- **A plan spans what it is for**, from wherever it begins. -/
theorem spans_planFrom (h : planFrom layout aligned levels position = .ok pieces)
    (haligned : layout.segmentLength 0 ∣ aligned) (hlevels : levels ≤ layout.levels)
    (hposition : layout.segmentLength levels ∣ position) (hle : position ≤ aligned)
    (hzero : levels = 0 → position = aligned) : Spans layout position pieces aligned := by
  induction levels generalizing position pieces with
  | zero =>
    cases h
    exact hzero rfl
  | succ level ih =>
    have hdvd : layout.segmentLength level ∣ position := by
      rw [Rolling.segmentLength_succ] at hposition
      exact dvd_of_mul_left_dvd hposition
    obtain ⟨-, rest, hrest, rfl⟩ := (planFrom_succ_eq_ok_iff hdvd hle).1 h
    have hrow := spans_range hlevels (position / layout.segmentLength level)
      ((aligned - position) / layout.segmentLength level)
    have hlast : (position / layout.segmentLength level + (aligned - position) /
        layout.segmentLength level) * layout.segmentLength level =
          roundDown aligned (layout.segmentLength level) := by
      rw [roundDown_eq_div_mul, div_eq_add_div_sub hdvd hle]
    rw [hlast, Nat.div_mul_cancel hdvd] at hrow
    refine spans_append hrow (ih hrest (Nat.le_of_succ_le hlevels) (dvd_roundDown _ _)
      (roundDown_le _ _) ?_)
    rintro rfl
    rw [roundDown_eq_div_mul, Nat.div_mul_cancel haligned]

/-- The plan of a request spans what is aligned of it. -/
theorem spans_plan (h : plan layout aligned = .ok pieces) (hlevels : 0 < layout.levels)
    (haligned : layout.segmentLength 0 ∣ aligned) : Spans layout 0 pieces aligned :=
  spans_planFrom h haligned le_rfl (dvd_zero _) (Nat.zero_le _)
    fun hnone => absurd hnone hlevels.ne'

/-- They are of the levels there are, and within the stretch. -/
theorem Spans.within (h : Spans layout a pieces b) :
    a ≤ b ∧ ∀ p ∈ pieces, p.level < layout.levels ∧
      (p.index + 1) * layout.segmentLength p.level ≤ b := by
  induction pieces generalizing a with
  | nil => exact ⟨Nat.le_of_eq h, fun p hp => by cases hp⟩
  | cons p pieces ih =>
    obtain ⟨hlevel, rfl, hrest⟩ := h
    obtain ⟨hle, hwithin⟩ := ih hrest
    have hlt : p.index * layout.segmentLength p.level ≤
        (p.index + 1) * layout.segmentLength p.level := Nat.mul_le_mul_right _ (Nat.le_succ _)
    exact ⟨hlt.trans hle, List.forall_mem_cons.2 ⟨⟨hlevel, hle⟩, hwithin⟩⟩

/-- The lengths add up to the stretch. -/
theorem Spans.add_sum (h : Spans layout a pieces b) :
    a + (pieces.map fun p => layout.segmentLength p.level).sum = b := by
  induction pieces generalizing a with
  | nil => exact h
  | cons p pieces ih =>
    obtain ⟨-, rfl, hrest⟩ := h
    have hsum := ih hrest
    rw [Nat.succ_mul] at hsum
    rw [List.map_cons, List.sum_cons, ← Nat.add_assoc, hsum]

/-! ## The longest first is best -/

/-- How many pieces `n` squarings take if the longest come first. -/
def fewest (layout : Rolling) : (levels n : Nat) → Nat
  | 0, _ => 0
  | level + 1, n =>
    n / layout.segmentLength level + fewest layout level (n % layout.segmentLength level)

/-- So many are in a plan. -/
theorem length_planFrom (h : planFrom layout aligned levels position = .ok pieces)
    (hposition : layout.segmentLength levels ∣ position) (hle : position ≤ aligned) :
    pieces.length = fewest layout levels (aligned - position) := by
  induction levels generalizing position pieces with
  | zero =>
    cases h
    rfl
  | succ level ih =>
    have hdvd : layout.segmentLength level ∣ position := by
      rw [Rolling.segmentLength_succ] at hposition
      exact dvd_of_mul_left_dvd hposition
    obtain ⟨-, rest, hrest, rfl⟩ := (planFrom_succ_eq_ok_iff hdvd hle).1 h
    have hcut : aligned - roundDown aligned (layout.segmentLength level) =
        (aligned - position) % layout.segmentLength level := by
      obtain ⟨index, rfl⟩ := hdvd
      rw [roundDown, Nat.sub_sub_self (Nat.mod_le _ _), Nat.sub_mul_mod hle]
    rw [List.length_append, List.length_map, List.length_range, fewest,
      ih hrest (dvd_roundDown _ _) (roundDown_le _ _), hcut]

/-- Squarings that the longest pieces cover take one for each of these. -/
theorem fewest_mul_add (layout : Rolling) (level q n : Nat) :
    fewest layout (level + 1) (q * layout.segmentLength level + n) =
      q + fewest layout (level + 1) n := by
  rw [fewest, fewest, Nat.mul_comm q, Nat.mul_add_div (layout.segmentLength_pos level),
    Nat.mul_add_mod, Nat.add_assoc]

/-- **Longer pieces are never a loss**: each stands for four. -/
theorem fewest_succ_le (layout : Rolling) (level n : Nat) :
    fewest layout (level + 2) n ≤ fewest layout (level + 1) n := by
  have hsplit : n = 4 * (n / layout.segmentLength (level + 1)) * layout.segmentLength level +
      n % layout.segmentLength (level + 1) := by
    conv_lhs => rw [← Nat.div_add_mod n (layout.segmentLength (level + 1))]
    rw [Rolling.segmentLength_succ]
    ring
  have hfour := fewest_mul_add layout level (4 * (n / layout.segmentLength (level + 1)))
    (n % layout.segmentLength (level + 1))
  rw [← hsplit] at hfour
  rw [fewest, hfour]
  omega

/-- **A piece more takes one more at most**, on whatever level it is. -/
theorem fewest_add_le (hlevel : level < levels) (n : Nat) :
    fewest layout levels (n + layout.segmentLength level) ≤ fewest layout levels n + 1 := by
  induction levels generalizing n with
  | zero => exact absurd hlevel (Nat.not_lt_zero level)
  | succ top ih =>
    rcases Nat.lt_succ_iff_lt_or_eq.1 hlevel with hbelow | rfl
    · obtain ⟨top, rfl⟩ := Nat.exists_eq_succ_of_ne_zero (Nat.ne_zero_of_lt hbelow)
      -- the longest pieces cover what they did, and the rest is up to those below
      have hsplit : n + layout.segmentLength level =
          n / layout.segmentLength (top + 1) * layout.segmentLength (top + 1) +
            (n % layout.segmentLength (top + 1) + layout.segmentLength level) := by
        rw [← Nat.add_assoc, Nat.div_add_mod']
      rw [hsplit, fewest_mul_add]
      calc n / layout.segmentLength (top + 1) + fewest layout (top + 2)
            (n % layout.segmentLength (top + 1) + layout.segmentLength level)
          ≤ n / layout.segmentLength (top + 1) + fewest layout (top + 1)
              (n % layout.segmentLength (top + 1) + layout.segmentLength level) :=
            Nat.add_le_add_left (fewest_succ_le layout top _) _
        _ ≤ n / layout.segmentLength (top + 1) +
              (fewest layout (top + 1) (n % layout.segmentLength (top + 1)) + 1) :=
            Nat.add_le_add_left (ih hbelow _) _
        _ = fewest layout (top + 2) n + 1 := rfl
    · have hone := fewest_mul_add layout level 1 n
      rw [Nat.one_mul, Nat.add_comm _ n] at hone
      rw [hone, Nat.add_comm]

/-- **No pieces whose lengths add up to as much are fewer.** -/
theorem fewest_sum_le (h : ∀ p ∈ pieces, p.level < levels) :
    fewest layout levels (pieces.map fun p => layout.segmentLength p.level).sum ≤
      pieces.length := by
  have hnone : ∀ levels, fewest layout levels 0 = 0 := by
    intro levels
    induction levels with
    | zero => rfl
    | succ level ih => rw [fewest, Nat.zero_div, Nat.zero_mod, ih]
  induction pieces with
  | nil => exact (hnone levels).le
  | cons p pieces ih =>
    obtain ⟨hp, hpieces⟩ := List.forall_mem_cons.1 h
    rw [List.map_cons, List.sum_cons, Nat.add_comm]
    exact (fewest_add_le hp _).trans (Nat.succ_le_succ (ih hpieces))

/-- **No tiling is shorter than the plan.** -/
theorem length_plan_le (hplan : plan layout aligned = .ok pieces)
    (h : Spans layout 0 others aligned) : pieces.length ≤ others.length := by
  have hsum := h.add_sum
  rw [Nat.zero_add] at hsum
  rw [length_planFrom hplan (dvd_zero _) (Nat.zero_le _), Nat.sub_zero, ← hsum]
  exact fewest_sum_le fun p hp => (h.within.2 p hp).1

/-! ## What is collected -/

variable {outcome : Piece → Except DelayError Segment} {segment : Segment}
variable {segments rest : List Segment} {i : Nat}

/-- The four pieces that one of the next level is made of. -/
def parts (level index : Nat) : List Piece :=
  (List.range 4).map fun i => ⟨level, 4 * index + i⟩

/-- **The parts of a piece span it.** -/
theorem spans_parts (hlevel : level < layout.levels) (index : Nat) :
    Spans layout (index * layout.segmentLength (level + 1)) (parts level index)
      ((index + 1) * layout.segmentLength (level + 1)) := by
  have hstart : index * layout.segmentLength (level + 1) =
      4 * index * layout.segmentLength level := by
    rw [Rolling.segmentLength_succ]
    ring
  have hend : (index + 1) * layout.segmentLength (level + 1) =
      (4 * index + 4) * layout.segmentLength level := by
    rw [Rolling.segmentLength_succ]
    ring
  rw [hstart, hend]
  exact spans_range hlevel (4 * index) 4

/-- **The work of a request**: begun with pieces pending, it ends with these
segments collected. -/
inductive Collects (outcome : Piece → Except DelayError Segment) :
    List Piece → List Segment → Prop
  /-- Nothing is pending. -/
  | done : Collects outcome [] []
  /-- The first piece that is pending is found. -/
  | found {p : Piece} {segment : Segment} {pending : List Piece} {segments : List Segment} :
      outcome p = .ok segment → Collects outcome pending segments →
      Collects outcome (p :: pending) (segment :: segments)
  /-- It is lost and no shortest one, and its parts are pending before the
  others. -/
  | lost {level index i : Nat} {pending : List Piece} {segments : List Segment} :
      outcome ⟨level + 1, index⟩ = .error (.lapped i) →
      Collects outcome (parts level index ++ pending) segments →
      Collects outcome (⟨level + 1, index⟩ :: pending) segments

theorem resolveAll_nil : resolveAll outcome [] = pure [] := rfl

theorem resolveAll_cons (p : Piece) (pending : List Piece) :
    resolveAll outcome (p :: pending) = (do
      let these ← resolve outcome p.level p.index
      let those ← resolveAll outcome pending
      return these ++ those) := rfl

theorem resolveAll_append (pieces others : List Piece) :
    resolveAll outcome (pieces ++ others) = (do
      let these ← resolveAll outcome pieces
      let those ← resolveAll outcome others
      return these ++ those) := by
  induction pieces with
  | nil => simp only [List.nil_append, resolveAll_nil, pure_bind, bind_pure]
  | cons p pieces ih =>
    simp only [List.cons_append, resolveAll_cons, ih, bind_assoc, pure_bind, List.append_assoc]

/-- A piece that is found is resolved to what was found. -/
theorem resolve_of_ok {p : Piece} (h : outcome p = .ok segment) :
    resolve outcome p.level p.index = .ok [segment] := by
  obtain ⟨_ | level, index⟩ := p
  · rw [resolve, h]
    rfl
  · rw [resolve, h]

/-- One that is lost is resolved as its parts are. -/
theorem resolve_of_lapped (h : outcome ⟨level + 1, index⟩ = .error (.lapped i)) :
    resolve outcome (level + 1) index = resolveAll outcome (parts level index) := by
  rw [resolve, h]
  simp only [parts, List.range, List.range.loop, List.map_cons, List.map_nil, resolveAll_cons,
    resolveAll_nil, Nat.add_zero, bind_assoc, pure_bind, List.append_assoc, List.append_nil]

/-- What is resolved, piece by piece, is collected before what is pending. -/
theorem collects_of_resolveAll
    (hresolve : ∀ p ∈ pieces, ∀ these, resolve outcome p.level p.index = .ok these →
      ∀ pending rest, Collects outcome pending rest →
        Collects outcome (p :: pending) (these ++ rest))
    (h : resolveAll outcome pieces = .ok segments) (hrest : Collects outcome pending rest) :
    Collects outcome (pieces ++ pending) (segments ++ rest) := by
  induction pieces generalizing segments with
  | nil =>
    cases h
    exact hrest
  | cons p pieces ih =>
    simp only [resolveAll_cons, bind_eq_ok_iff, pure_eq_ok_iff] at h
    obtain ⟨these, hthese, those, hthose, rfl⟩ := h
    obtain ⟨hfirst, hothers⟩ := List.forall_mem_cons.1 hresolve
    rw [List.cons_append, List.append_assoc]
    exact hfirst these hthese _ _ (ih hothers hthose)

/-- So it is for each piece, by its level: a lost one is resolved on the level
below. -/
theorem collects_of_resolve (h : resolve outcome level index = .ok segments)
    (hrest : Collects outcome pending rest) :
    Collects outcome (⟨level, index⟩ :: pending) (segments ++ rest) := by
  induction level generalizing index segments pending rest with
  | zero =>
    simp only [resolve, bind_eq_ok_iff, pure_eq_ok_iff] at h
    obtain ⟨segment, hsegment, rfl⟩ := h
    exact .found hsegment hrest
  | succ level ih =>
    cases houtcome : outcome ⟨level + 1, index⟩ with
    | ok segment =>
      cases (resolve_of_ok houtcome).symm.trans h
      exact .found houtcome hrest
    | error error =>
      cases error with
      | lapped i =>
        rw [resolve_of_lapped houtcome] at h
        refine .lost houtcome (collects_of_resolveAll (fun p hp these hthese pending rest => ?_) h
          hrest)
        obtain ⟨j, -, rfl⟩ := List.mem_map.1 hp
        exact ih hthese
      | _ =>
        rw [resolve, houtcome] at h
        cases h

/-- **What is collected is what is resolved**, recursively. -/
theorem resolveAll_eq_ok_iff :
    resolveAll outcome pieces = .ok segments ↔ Collects outcome pieces segments := by
  constructor
  · intro h
    have hcollects := collects_of_resolveAll
      (fun p _ these hthese pending rest hrest => collects_of_resolve hthese hrest) h .done
    rwa [List.append_nil, List.append_nil] at hcollects
  · intro h
    induction h with
    | done => rfl
    | found hsegment _ ih =>
      rw [resolveAll_cons, resolve_of_ok hsegment, ih]
      rfl
    | lost hlost _ ih => rwa [resolveAll_cons, resolve_of_lapped hlost, ← resolveAll_append]

/-- Something is collected for each piece, and all of it was found. -/
theorem Collects.found_of (h : Collects outcome pieces segments) :
    pieces.length ≤ segments.length ∧ ∀ segment ∈ segments, ∃ p, outcome p = .ok segment := by
  induction h with
  | done => exact ⟨le_rfl, fun segment hsegment => by cases hsegment⟩
  | found hsegment _ ih =>
    exact ⟨Nat.succ_le_succ ih.1, List.forall_mem_cons.2 ⟨⟨_, hsegment⟩, ih.2⟩⟩
  | @lost level index i pending segments _ _ ih =>
    have hmore : (parts level index ++ pending).length = 4 + pending.length := by
      rw [List.length_append, parts, List.length_map, List.length_range]
    refine ⟨?_, ih.2⟩
    rw [List.length_cons]
    omega

end Segmented

/-- **Segments are joined** from `a` to `b` squarings: each starts where the one
before it ends. -/
def Segment.Joined : (a : Nat) → List Segment → (b : Nat) → Prop
  | a, [], b => a = b
  | a, s :: rest, b => s.start = a ∧ Joined (a + s.length) rest b

namespace Segmented

/-- **What is collected lies where the pieces do**, whatever was lost: the work
keeps it that the parts of a piece span what the piece does. -/
theorem Collects.joined
    (hplace : ∀ p segment, outcome p = .ok segment →
      segment.start = p.index * layout.segmentLength p.level ∧
        segment.length = layout.segmentLength p.level)
    (h : Collects outcome pieces segments) (hspans : Spans layout a pieces b) :
    Segment.Joined a segments b := by
  induction h generalizing a with
  | done => exact hspans
  | @found p segment _ _ hsegment _ ih =>
    obtain ⟨-, rfl, hrest⟩ := hspans
    obtain ⟨hstart, hlength⟩ := hplace p segment hsegment
    rw [Nat.succ_mul] at hrest
    exact ⟨hstart, ih (by rwa [hlength])⟩
  | @lost level index _ _ _ _ _ ih =>
    obtain ⟨hlevel, rfl, hrest⟩ := hspans
    exact ih (spans_append (spans_parts (Nat.lt_of_succ_lt hlevel) index) hrest)

end Segmented

end VerifiableDelay
