import VerifiableDelay.Proof.Thirds
import VerifiableDelay.Proofs.Proof.Segment
import VerifiableDelay.Proofs.Recorder.Widening
/-!
# All proofs of a run in three pieces are one

A form that is found for an iteration is the form of that iteration, on
whatever stride it was kept and however early the stride was widened
(`Thirds.represents_formAt`). So what is proven of a run are right segments,
whose places only the length of the run decides (`Thirds.tiles_segments`).
Right segments of the same places send the same: **two runs from one form
make one proof, and it is accepted** (`Thirds.makes_one_proof`), whatever
their settings and fast paths, and whenever their provers look at them.
-/

namespace VerifiableDelay

open Form

variable {o : Overflow} {s : Settings} {d : Discriminant} {x f g : Form} {accelerator : Accelerator}
variable {bound : Option Nat} {r : Run WideningRecorder} {e : Engine WideningRecorder}
variable {c : FormClass d}

namespace Thirds

variable {k : Look WideningRecorder} {looks : Nat → Look WideningRecorder} {i : Nat}
variable {splits length done : Nat} {segment : Segment} {segments : List Segment}

/-- **The pieces** of `length` squarings that `done` others come before: where
each starts and how long it is. -/
def pieces : (splits length done : Nat) → List (Nat × Nat)
  | 0, length, done => [(done, length)]
  | splits + 1, length, done =>
    let first := splitPoint length
    (done, first) :: pieces splits (length - first) (done + first)

theorem length_pieces (splits length done : Nat) :
    (pieces splits length done).length = splits + 1 := by
  induction splits generalizing length done with
  | zero => rfl
  | succ splits ih => rw [pieces, List.length_cons, ih]

theorem splitPoint_le (length : Nat) : splitPoint length ≤ length := by
  refine (roundDown_le _ _).trans ?_
  omega

theorem parameters_width_le (switchIterations done length : Nat) :
    (parameters switchIterations done length).width ≤ 63 := by
  unfold parameters
  split <;> decide

/-! ## What a prover finds -/

theorem startWithin_eq_ok_iff :
    startWithin o s d x accelerator bound = .ok r ↔
      ∃ recorder, WideningRecorder.start o s x = .ok recorder ∧
        Run.start o s d x WideningRecorder.listener recorder accelerator bound = .ok r := by
  simp only [startWithin, bind_eq_ok_iff]

/-- What its segments are of, and where the first of them starts. -/
theorem start_eq (h : startWithin o s d x accelerator bound = .ok r) :
    r.discriminant = d ∧ r.x = x.reduced := by
  obtain ⟨recorder, -, hrun⟩ := startWithin_eq_ok_iff.1 h
  obtain ⟨-, rfl⟩ := Run.start_eq_ok_iff.1 hrun
  exact ⟨rfl, rfl⟩

/-- What is recorded at any moment of a run. -/
theorem recorded (h : startWithin o s d x accelerator bound = .ok r) (hx : x.Definite d.value)
    (hh : r.loop.Honest r.engine) (he : r.loop.Reaches r.engine e) :
    WideningRecorder.Recorded (x.along d) s e.listening (e.done + 1) := by
  obtain ⟨recorder, hrecorder, hrun⟩ := startWithin_eq_ok_iff.1 h
  exact Run.keeps hrun hx (WideningRecorder.keeps_recorded _ s) hh
    (WideningRecorder.recorded_start hrecorder rfl) he

/-- **A form that is found** for an iteration is one of it. -/
theorem represents_formAt (h : startWithin o s d x accelerator bound = .ok r)
    (hx : Represents d x c) (hh : r.loop.Honest r.engine) (he : r.loop.Reaches r.engine e)
    (hf : e.listening.formAt i = .ok f) : Represents d f (c ^ 2 ^ i) := by
  obtain ⟨slot, hslot, hget⟩ := WideningRecorder.formAt_eq_ok_iff.1 hf
  obtain ⟨rfl, -⟩ := (recorded h hx.definite hh he).eq_of_get? hslot hget
  exact hx.along i

/-- **Checkpoints that are found** are those of the run, whenever each of
them is taken. -/
theorem truthful_checkpoints (h : startWithin o s d x accelerator bound = .ok r)
    (hx : Represents d x c) (hh : r.loop.Honest r.engine) (hk : k.InOrder r.loop r.engine)
    (done length : Nat) :
    Power.Truthful d (checkpoints k done length) (c ^ 2 ^ done)
      (parameters s.switchIterations done length).stride length := by
  intro i f _ hread
  have htaken := hk.opened.trans (hk.ended.trans (hk.checked.trans (hk.taken i)))
  have hrecorded := recorded h hx.definite hh htaken
  obtain ⟨-, slot, hslot, hget⟩ := View.read_eq_ok_iff.1 hread
  simp only [view, hrecorded.switchIterations_eq] at hslot hget
  obtain ⟨rfl, -⟩ := hrecorded.eq_of_get? hslot hget
  rw [← pow_mul, ← pow_add, Nat.mul_comm _ i]
  exact hx.along _

/-- **What is proven of a segment is right**, if its two ends are. -/
theorem right_segmentAt (h : startWithin o s d x accelerator bound = .ok r)
    (hx : Represents d x c) (hh : r.loop.Honest r.engine) (hk : k.InOrder r.loop r.engine)
    (hf : Represents d f (c ^ 2 ^ done)) (hg : Represents d g (c ^ 2 ^ (done + length)))
    (hsegment : segmentAt d k f g done length = .ok segment) :
    segment.place = (done, length) ∧ segment.Right d c := by
  simp only [segmentAt, bind_eq_ok_iff, pure_eq_ok_iff] at hsegment
  obtain ⟨proof, hproof, rfl⟩ := hsegment
  rw [(recorded h hx.definite hh hk.opened).switchIterations_eq] at hproof
  have htruthful := truthful_checkpoints h hx hh hk done length
  exact ⟨rfl, hf, hg, Power.represents_of_prove (parameters_width_le _ _ _) hf htruthful hproof⟩

/-- So is the last segment, though its end may not have been kept. -/
theorem right_lastSegment (h : startWithin o s d x accelerator bound = .ok r)
    (hx : Represents d x c) (hh : r.loop.Honest r.engine) (hk : k.InOrder r.loop r.engine)
    (hf : Represents d f (c ^ 2 ^ done))
    (hsegment : lastSegment d k f length done = .ok segment) :
    segment.place = (done, length) ∧ segment.Right d c := by
  simp only [lastSegment, bind_eq_ok_iff] at hsegment
  obtain ⟨_, -, g, hg, hsegment⟩ := hsegment
  have hcheckpoint := represents_formAt h hx hh (hk.opened.trans hk.ended) hg
  refine right_segmentAt h hx hh hk hf ?_ hsegment
  have hlast := hcheckpoint.squareTimes (done + length - roundDown (done + length) 100)
  rwa [← pow_mul, ← pow_add, Nat.add_sub_cancel' (roundDown_le _ _)] at hlast

/-- **The segments tile the run**, each in the place of its piece. -/
theorem tiles_segments (h : startWithin o s d x accelerator bound = .ok r)
    (hx : Represents d x c) (hh : r.loop.Honest r.engine)
    (hlooks : ∀ splits, (looks splits).InOrder r.loop r.engine)
    (hf : Represents d f (c ^ 2 ^ done))
    (hsegments : Thirds.segments d looks splits f length done = .ok segments) :
    Segment.Tiles d c done segments (done + length) ∧
      segments.map Segment.place = pieces splits length done := by
  induction splits generalizing f length done segments with
  | zero =>
    simp only [Thirds.segments, bind_eq_ok_iff, pure_eq_ok_iff] at hsegments
    obtain ⟨last, hlast, rfl⟩ := hsegments
    obtain ⟨hplace, hright⟩ := right_lastSegment h hx hh (hlooks 0) hf hlast
    obtain ⟨rfl, rfl⟩ := Prod.mk.inj hplace
    exact ⟨Segment.tiles_singleton rfl hright rfl, rfl⟩
  | succ splits ih =>
    simp only [Thirds.segments, bind_eq_ok_iff, pure_eq_ok_iff] at hsegments
    obtain ⟨_, -, g, hg, head, hhead, tail, htail, rfl⟩ := hsegments
    have hended := (hlooks (splits + 1)).opened.trans (hlooks (splits + 1)).ended
    have hend := represents_formAt h hx hh hended hg
    obtain ⟨hplace, hright⟩ := right_segmentAt h hx hh (hlooks (splits + 1)) hf hend hhead
    obtain ⟨htiles, hplaces⟩ := ih hend htail
    obtain ⟨rfl, hlength⟩ := Prod.mk.inj hplace
    have hle := splitPoint_le length
    rw [Nat.add_assoc, Nat.add_sub_cancel' hle] at htiles
    exact ⟨⟨rfl, hright, hlength ▸ htiles⟩, by rw [List.map_cons, hplace, hplaces]; rfl⟩

/-! ## When a proof is made -/

/-- **What a piece takes is there**: the multiple of a hundred that it ends
at or soon after, and its checkpoints. -/
def Ready (e : Engine WideningRecorder) (p : Nat × Nat) : Prop :=
  (e.listening.formAt (roundDown (p.1 + p.2) 100)).isOk = true ∧
    ∀ i < p.2, (parameters e.listening.switchIterations p.1 p.2).stride * i < p.2 →
      (checkpoints (.at e) p.1 p.2 i).isOk = true

instance (e : Engine WideningRecorder) (p : Nat × Nat) : Decidable (Ready e p) :=
  inferInstanceAs (Decidable (_ ∧ _))

/-- There is a challenge for what a piece says. -/
def Challenged (d : Discriminant) (x : Form) (p : Nat × Nat) : Prop :=
  Challenge.prime d (squareTimes d p.1 x) (squareTimes d (p.1 + p.2) x) ≠ .error .noPrime

/-- A segment that is ready is proven. -/
theorem exists_segmentAt (h : startWithin o s d x accelerator bound = .ok r)
    (hx : Represents d x c) (hh : r.loop.Honest r.engine) (he : r.loop.Reaches r.engine e)
    (hstop : e.stopRaised = false) (hready : Ready e (done, length))
    (hchallenge : Challenged d x (done, length)) (hf : Represents d f (c ^ 2 ^ done))
    (hg : Represents d g (c ^ 2 ^ (done + length))) :
    ∃ segment, segmentAt d (.at e) f g done length = .ok segment := by
  have hswitch := (recorded h hx.definite hh he).switchIterations_eq
  have hpos := (parameters s.switchIterations done length).stride_pos
  have hfound : ∀ i, (parameters s.switchIterations done length).stride * i < length →
      ∃ f, checkpoints (.at e) done length i = .ok f := by
    intro i hi
    have hlt : i < length := (Nat.le_mul_of_pos_left i hpos).trans_lt hi
    exact isOk_iff_exists.1 (hready.2 i hlt (by rwa [hswitch]))
  have hprime : Challenge.prime d f g ≠ .error .noPrime := by
    rwa [Challenge.prime_eq_of_represents hf (hx.squareTimes _) hg (hx.squareTimes _)]
  obtain ⟨proof, hproof⟩ := Power.exists_prove (parameters_width_le _ _ _)
    (truthful_checkpoints h hx hh (Look.inOrder_at he) done length) hfound hprime
  refine ⟨_, bind_eq_ok_iff.2 ⟨proof, ?_, rfl⟩⟩
  simp only [Look.at, hswitch, hstop] at hproof ⊢
  exact hproof

/-- **Segments are proven** if their pieces are ready, challenges and
all. -/
theorem exists_segments (h : startWithin o s d x accelerator bound = .ok r)
    (hx : Represents d x c) (hh : r.loop.Honest r.engine) (he : r.loop.Reaches r.engine e)
    (hstop : e.stopRaised = false) (hcount : done + length ≤ e.progress.count)
    (hdone : 100 ∣ done)
    (hpieces : ∀ p ∈ pieces splits length done, Ready e p ∧ Challenged d x p)
    (hf : Represents d f (c ^ 2 ^ done)) :
    ∃ segments, Thirds.segments d (fun _ => .at e) splits f length done = .ok segments := by
  induction splits generalizing f length done with
  | zero =>
    obtain ⟨hready, hchallenge⟩ := hpieces _ List.mem_cons_self
    obtain ⟨g, hg⟩ := isOk_iff_exists.1 hready.1
    have hcheckpoint := (represents_formAt h hx hh he hg).squareTimes
      (done + length - roundDown (done + length) 100)
    rw [← pow_mul, ← pow_add, Nat.add_sub_cancel' (roundDown_le _ _)] at hcheckpoint
    obtain ⟨last, hlast⟩ := exists_segmentAt h hx hh he hstop hready hchallenge hf hcheckpoint
    have hwait := (e.progress.await_eq_ok_iff (done + length) e.stopRaised _).2 ⟨hcount, rfl⟩
    refine ⟨[last], ?_⟩
    simp only [Thirds.segments, lastSegment, bind_eq_ok_iff, pure_eq_ok_iff]
    exact ⟨last, ⟨_, hwait, g, hg, hlast⟩, rfl⟩
  | succ splits ih =>
    have hle := splitPoint_le length
    have hfirst : 100 ∣ done + splitPoint length := dvd_add hdone (dvd_roundDown _ _)
    obtain ⟨hready, hchallenge⟩ := hpieces _ List.mem_cons_self
    obtain ⟨g, hg⟩ := isOk_iff_exists.1 hready.1
    simp only [roundDown, Nat.mod_eq_zero_of_dvd hfirst, Nat.sub_zero] at hg
    have hend := represents_formAt h hx hh he hg
    obtain ⟨head, hhead⟩ := exists_segmentAt h hx hh he hstop hready hchallenge hf hend
    obtain ⟨tail, htail⟩ := ih (by omega) hfirst
      (fun p hp => hpieces p (List.mem_cons_of_mem _ hp)) hend
    have hwait := (e.progress.await_eq_ok_iff (done + splitPoint length) e.stopRaised _).2
      ⟨by omega, rfl⟩
    refine ⟨head :: tail, ?_⟩
    simp only [Thirds.segments, bind_eq_ok_iff, pure_eq_ok_iff]
    exact ⟨_, hwait, g, hg, head, hhead, tail, htail, rfl⟩

/-- **A run that has got so far is proven**, if what its pieces take is
there. -/
theorem exists_prove {iterations : Nat} (hbits : d.bits ≤ Discriminant.maxBits)
    (hd : Squarefree d.value) (h : startWithin o s d x accelerator bound = .ok r)
    (hx : Represents d x c) (hh : r.loop.Honest r.engine) (he : r.loop.Reaches r.engine e)
    (hlt : iterations < wordCount) (hstop : e.stopRaised = false)
    (hcount : iterations ≤ e.progress.count)
    (hpieces : ∀ p ∈ pieces Thirds.splits iterations 0, Ready e p ∧ Challenged d x p) :
    ∃ proof, prove { r with engine := e } iterations = .ok proof := by
  obtain ⟨hd', hrx⟩ := start_eq h
  have hf : Represents d r.x (c ^ 2 ^ 0) := by simpa [hrx] using hx.reduced
  obtain ⟨segments, hsegments⟩ :=
    exists_segments h hx hh he hstop (by omega) (dvd_zero _) hpieces hf
  obtain ⟨htiles, hplaces⟩ := tiles_segments h hx hh (fun _ => Look.inOrder_at he) hf hsegments
  rw [Nat.zero_add] at htiles
  have hlength := congrArg List.length hplaces
  rw [List.length_map, length_pieces] at hlength
  obtain ⟨proof, hproof⟩ := htiles.exists_encode hbits hd hlt
    (List.ne_nil_of_length_eq_add_one hlength) (by rw [hlength]; decide)
  refine ⟨proof, bind_eq_ok_iff.2 ⟨segments, ?_, ?_⟩⟩
  · exact hd' ▸ hsegments
  · exact hd' ▸ hproof

/-! ## What is made of a run -/

/-- **The proof can be made** of the first `iterations` squarings of a run
from `x`: by some build, with some settings, fast path and bound, and by
provers that look at the run in order, at whatever moments. -/
def Makes (d : Discriminant) (x : Form) (iterations : Nat) (proof : Proof) : Prop :=
  ∃ o s accelerator bound r looks, startWithin o s d x accelerator bound = .ok r ∧
    r.loop.Honest r.engine ∧ (∀ splits, (looks splits).InOrder r.loop r.engine) ∧
    proveWith r looks iterations = .ok proof

variable {iterations : Nat} {proof : Proof}

/-- A proof made at one moment of a run is one. -/
theorem makes_of_prove (h : startWithin o s d x accelerator bound = .ok r)
    (hh : r.loop.Honest r.engine) (he : r.loop.Reaches r.engine e)
    (hproof : prove { r with engine := e } iterations = .ok proof) : Makes d x iterations proof :=
  ⟨o, s, accelerator, bound, r, fun _ => .at e, h, hh, fun _ => Look.inOrder_at he, hproof⟩

/-- What is made is the encoding of segments that tile the run. -/
theorem Makes.exists_tiles (h : Makes d x iterations proof) (hx : Represents d x c) :
    ∃ segments, Segment.Tiles d c 0 segments iterations ∧
      segments.map Segment.place = pieces Thirds.splits iterations 0 ∧
      Chain.encode d segments = .ok proof := by
  obtain ⟨o, s, accelerator, bound, r, looks, hstart, hh, hlooks, hproof⟩ := h
  obtain ⟨segments, hsegments, hencode⟩ := bind_eq_ok_iff.1 hproof
  obtain ⟨hd, hrx⟩ := start_eq hstart
  rw [hd] at hsegments hencode
  have hf : Represents d r.x (c ^ 2 ^ 0) := by simpa [hrx] using hx.reduced
  obtain ⟨htiles, hplaces⟩ := tiles_segments hstart hx hh hlooks hf hsegments
  rw [Nat.zero_add] at htiles
  exact ⟨segments, htiles, hplaces, hencode⟩

/-- **All runs from a form make one proof, and it is accepted.** For a
squarefree discriminant that forms are encoded for and any definite form: of
whatever runs from it proofs are made, they are the same proof. It encodes
the form squared that many times, it has two links, and it is accepted. Only
where a piece is empty this takes that there is a challenge. -/
theorem makes_one_proof (hbits : d.bits ≤ Discriminant.maxBits)
    (hsquarefree : Squarefree d.value.natAbs) (hx : x.Definite d.value)
    (hlt : iterations < wordCount)
    (hempty : ∀ start, (start, 0) ∈ pieces Thirds.splits iterations 0 →
      Challenge.prime d (squareTimes d start x) (squareTimes d start x) ≠ .error .noPrime) :
    ∃ start output, x.encode d = .ok start ∧ (squareTimes d iterations x).encode d = .ok output ∧
      (∀ proof, Makes d x iterations proof → proof.depth = 2 ∧ proof.output = output ∧
        Verify.chain d start proof.bytes iterations 2 = .ok true) ∧
      ∀ proof other, Makes d x iterations proof → Makes d x iterations other → proof = other := by
  have hd : Squarefree d.value := Int.squarefree_natAbs.1 hsquarefree
  have hrep := Represents.of_squarefree hd hx
  obtain ⟨start, hstart⟩ := exists_encode hx hbits
  obtain ⟨output, houtput⟩ := exists_encode (hrep.squareTimes iterations).definite hbits
  refine ⟨start, output, hstart, houtput, fun proof hproof => ?_,
    fun proof other hproof hother => ?_⟩
  · obtain ⟨segments, htiles, hplaces, hencode⟩ := hproof.exists_tiles hrep
    have hchallenge : ∀ t ∈ segments, t.length = 0 →
        Challenge.prime d t.x t.y ≠ .error .noPrime := by
      intro t ht hzero
      rw [(htiles.right t ht).prime_of_empty hzero (hrep.squareTimes t.start)]
      refine hempty t.start ?_
      rw [← hplaces, ← hzero]
      exact List.mem_map_of_mem ht
    obtain ⟨start', hstart', hout, hdepth, -, hchain⟩ :=
      htiles.exists_chain hbits hd hrep hlt hchallenge hencode
    cases hstart.symm.trans hstart'
    have hlength := congrArg List.length hplaces
    rw [List.length_map, length_pieces] at hlength
    have htwo : proof.depth = 2 := by
      rw [← hdepth, splits] at hlength
      omega
    rw [htwo] at hchain
    exact ⟨htwo, Except.ok.inj (hout.symm.trans houtput), hchain⟩
  · obtain ⟨segments, htiles, hplaces, hencode⟩ := hproof.exists_tiles hrep
    obtain ⟨others, htiles', hplaces', hencode'⟩ := hother.exists_tiles hrep
    have hsent := Segment.sent_eq_of_places htiles.right htiles'.right (hplaces.trans hplaces'.symm)
    have hsame := Chain.encode_congr (htiles.fits hlt) (htiles'.fits hlt) hsent
    exact Except.ok.inj (hencode.symm.trans (hsame.trans hencode'))

/-- Settings with which the stride widens at once. -/
def early1823 : Settings := { batchSize := 30, switchIterations := 0 }

/-- Settings with which a short run keeps its stride. -/
def late1823 : Settings := { batchSize := 64, switchIterations := 200 }

/-- A run of 152 squarings without a fast path. -/
def run1823 (s : Settings) : Run WideningRecorder where
  settings := s
  x := form1823.reduced
  loop := { discriminant := discriminant1823, listener := WideningRecorder.listener
            batchSize := s.batchSize, bound := some 152 }
  engine := Loop.start form1823.reduced ((WideningRecorder.empty s).keep form1823 0) false

/-- It makes a proof, if all that this takes is there when it has ended. -/
theorem exists_prove_1823 (s : Settings)
    (hstart : startWithin .stops s discriminant1823 form1823 .absent (some 152) = .ok (run1823 s))
    (hend : (run1823 s).finish.engine.stopRaised = false ∧
      152 ≤ (run1823 s).finish.engine.progress.count)
    (hready : ∀ p ∈ pieces Thirds.splits 152 0, Ready (run1823 s).finish.engine p) :
    ∃ proof, prove (run1823 s).finish 152 = .ok proof ∧
      Makes discriminant1823 form1823 152 proof := by
  have hd := Int.squarefree_natAbs.1 squarefree1823
  have hhonest : (run1823 s).loop.unaided.Honest (run1823 s).engine := Loop.honest_unaided
  have hreaches := (run1823 s).reaches_finish
  have hpieces : pieces Thirds.splits 152 0 = [(0, 100), (100, 0), (100, 52)] := by decide
  have hchallenged : ∀ p ∈ pieces Thirds.splits 152 0,
      Challenged discriminant1823 form1823 p := by
    rw [hpieces]
    intro p hp
    simp only [List.mem_cons, List.not_mem_nil, or_false] at hp
    rcases hp with rfl | rfl | rfl
    · exact challenge1823 0 25
    · exact challenge1823 25 25
    · exact challenge1823 25 38
  obtain ⟨proof, hproof⟩ := exists_prove (by decide) hd hstart
    (.of_squarefree hd definite1823) hhonest hreaches (by decide) hend.1 hend.2
    fun p hp => ⟨hready p hp, hchallenged p hp⟩
  exact ⟨proof, hproof, makes_of_prove hstart hhonest hreaches hproof⟩

/-- Two runs of 152 squarings, one of which has widened its stride in the
first piece while the other never does. The second piece is empty. -/
theorem makes_one_proof_1823 :
    (run1823 early1823).finish.engine.listening.layout.switch = some 100 ∧
      (run1823 late1823).finish.engine.listening.layout.switch = none ∧
      ∃ start output proof, form1823.encode discriminant1823 = .ok start ∧
        (squareTimes discriminant1823 152 form1823).encode discriminant1823 = .ok output ∧
        prove (run1823 early1823).finish 152 = .ok proof ∧
        prove (run1823 late1823).finish 152 = .ok proof ∧
        proof.depth = 2 ∧ proof.output = output ∧
        Verify.chain discriminant1823 start proof.bytes 152 2 = .ok true := by
  obtain ⟨proof, hearly, hmakes⟩ := exists_prove_1823 early1823 rfl (by decide +kernel)
    (by decide +kernel)
  obtain ⟨other, hlate, hmakes'⟩ := exists_prove_1823 late1823 rfl (by decide +kernel)
    (by decide +kernel)
  have hempty : ∀ start, (start, 0) ∈ pieces Thirds.splits 152 0 →
      Challenge.prime discriminant1823 (squareTimes discriminant1823 start form1823)
        (squareTimes discriminant1823 start form1823) ≠ .error .noPrime := by
    intro start hstart
    rw [show pieces Thirds.splits 152 0 = [(0, 100), (100, 0), (100, 52)] by decide] at hstart
    obtain rfl : start = 100 := by simpa using hstart
    exact challenge1823 25 25
  obtain ⟨start, output, hstart, houtput, haccepted, hone⟩ :=
    makes_one_proof (by decide) squarefree1823 definite1823 (by decide) hempty
  obtain rfl := hone proof other hmakes hmakes'
  exact ⟨by decide +kernel, by decide +kernel, start, output, proof, hstart, houtput, hearly,
    hlate, haccepted proof hmakes⟩

end Thirds

end VerifiableDelay
