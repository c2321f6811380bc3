import VerifiableDelay.Proof.Whole
import VerifiableDelay.Proofs.Proof.Segment
import VerifiableDelay.Proofs.Recorder.Uniform
/-!
# A run beside its prover is proven as one on its own

Every checkpoint that a run of known length is proven from was recorded by
the time the run is long enough (`Whole.read_eq`), whenever it is read. So
the prover is stopped, or there is no challenge, or it makes a segment that
is right about the run. The plain prover makes a right segment as well, and
right segments of one place are sent alike: **the two provers send the same
bytes** (`Whole.proves_as_alone`), each with digits of its own.
-/

namespace VerifiableDelay

open Form

variable {o : Overflow} {s : Settings} {d : Discriminant} {x : Form} {accelerator : Accelerator}
variable {bound : Option Nat} {r : Run UniformRecorder} {e : Engine UniformRecorder}
variable {parameters : Parameters} {c : FormClass d} {iterations : Nat} {segment : Segment}

/-- **A right segment from the start is what the plain prover makes**, whatever
the digits it cuts the quotient into. -/
theorem Alone.proveWith_of_right {output body : List UInt8} (hx : Represents d x c)
    (hwidth : parameters.width ≤ 63) (hright : segment.Right d c) (hstart : segment.start = 0)
    (houtput : segment.y.encode d = .ok output) (hbody : segment.proof.encode d = .ok body) :
    proveWith d x segment.length parameters = .ok (output ++ body) := by
  have hsx : Represents d segment.x c := by
    have h := hright.x
    rwa [hstart, Nat.pow_zero, pow_one] at h
  have hsy : Represents d segment.y (c ^ 2 ^ segment.length) := by
    have h := hright.y
    rwa [hstart, Nat.zero_add] at h
  have hy := hx.squareTimes segment.length
  rw [← encode_congr hy.definite hsy.definite (reduced_eq_of_represents hy hsy)] at houtput
  rcases hright.proof with ⟨hzero, hproof⟩ | ⟨modulus, hmodulus, hproof⟩
  · -- nothing is squared, and the proof of that takes no challenge
    rw [hzero] at houtput ⊢
    rw [hproof] at hbody
    have houtput' := (encode_reduced hx.definite).trans houtput
    simp only [proveWith, square, squareFrom, Power.prove, if_true, houtput', hbody, ofFormResult,
      bind, Except.bind]
    rfl
  · rw [hstart, Nat.pow_zero, pow_one] at hproof
    rw [← encode_reduced hproof.definite] at hbody
    rw [Challenge.prime_eq_of_represents hsx hx hsy hy] at hmodulus
    exact proveWith_eq hx hwidth hmodulus hproof.reduced hproof.isReduced_reduced houtput hbody

namespace Whole

variable {k : Look UniformRecorder} {i : Nat} {error : DelayError}

/-! ## What a prover finds -/

/-- What its segment is of, and where that starts. -/
theorem start_eq (h : startWith o s d x parameters iterations accelerator bound = .ok r) :
    r.discriminant = d ∧ r.x = x.reduced := by
  obtain ⟨-, rfl⟩ := Run.start_eq_ok_iff.1 h
  exact ⟨rfl, rfl⟩

/-- What is recorded at any moment of a run. -/
theorem recorded (h : startWith o s d x parameters iterations accelerator bound = .ok r)
    (hx : x.Definite d.value) (hh : r.loop.Honest r.engine) (he : r.loop.Reaches r.engine e) :
    UniformRecorder.Recorded (x.along d) parameters iterations e.listening (e.done + 1) :=
  Run.keeps h hx (UniformRecorder.keeps_recorded _ _ _) hh
    (UniformRecorder.recorded_startWith parameters iterations rfl) he

/-- The last form is there once the run is long enough. -/
theorem result_eq (h : startWith o s d x parameters iterations accelerator bound = .ok r)
    (hx : x.Definite d.value) (hh : r.loop.Honest r.engine) (he : r.loop.Reaches r.engine e)
    (hdone : iterations ≤ e.done) : e.listening.result = some (x.along d iterations) := by
  rw [(recorded h hx hh he).result_eq, if_pos (Nat.lt_succ_of_le hdone)]

/-- **A checkpoint is found** as soon as the run has come to it. -/
theorem read_eq (h : startWith o s d x parameters iterations accelerator bound = .ok r)
    (hx : x.Definite d.value) (hh : r.loop.Honest r.engine) (he : r.loop.Reaches r.engine e)
    (hdone : parameters.stride * i ≤ e.done) (hi : parameters.stride * i ≤ iterations)
    (progress : Nat) :
    (view e.listening).read progress i = .ok (x.along d (parameters.stride * i)) := by
  have hrecorded := recorded h hx hh he
  refine View.read_eq_ok_iff.2 ⟨rfl, i, ?_, hrecorded.kept.slot i (Nat.lt_succ_of_le hdone) hi⟩
  simp only [view, hrecorded.layout_eq, hrecorded.parameters_eq, Nat.zero_add, Nat.mul_comm i]
  exact Layout.slot?_ofRun parameters.stride_pos hi

/-- So all of them are found that a prover takes, which waits for the run to be
long enough. -/
theorem faithful_checkpoints
    (h : startWith o s d x parameters iterations accelerator bound = .ok r)
    (hx : Represents d x c) (hh : r.loop.Honest r.engine) (hk : k.InOrder r.loop r.engine)
    (hdone : iterations ≤ k.opened.done) :
    Power.Faithful d (checkpoints k) c parameters.stride iterations := by
  intro i hi
  have hlater := hk.ended.trans (hk.checked.trans (hk.taken i))
  have hle := hdone.trans hlater.done_le
  exact ⟨_, read_eq h hx.definite hh (hk.opened.trans hlater) (by omega) hi.le _, hx.along _⟩

/-! ## What it makes of that -/

/-- **The segment is right**, if there is one. -/
theorem right_segmentAt (h : startWith o s d x parameters iterations accelerator bound = .ok r)
    (hx : Represents d x c) (hwidth : parameters.width ≤ 63) (hh : r.loop.Honest r.engine)
    (hk : k.InOrder r.loop r.engine) (hsegment : segmentAt d r.x k iterations = .ok segment) :
    segment.place = (0, iterations) ∧ segment.Right d c := by
  obtain ⟨n, hn, hrest⟩ := bind_eq_ok_iff.1 hsegment
  obtain ⟨hle, -⟩ := (Progress.await_eq_ok_iff _ _ _ _).1 hn
  have hopened := hle.trans (Run.sound h hx.definite hk.opened).published
  have hended := hk.opened.trans hk.ended
  rw [result_eq h hx.definite hh hended (hopened.trans hk.ended.done_le),
    (recorded h hx.definite hh hk.opened).parameters_eq] at hrest
  simp only [bind_eq_ok_iff, pure_eq_ok_iff] at hrest
  obtain ⟨proof, hproof, rfl⟩ := hrest
  have hfaithful := faithful_checkpoints h hx hh hk hopened
  refine ⟨rfl, ?_, ?_, ?_⟩
  · rw [(start_eq h).2, Nat.pow_zero, pow_one]
    exact hx.reduced
  · rw [Nat.zero_add]
    exact hx.along iterations
  · rw [Nat.pow_zero, pow_one]
    exact Power.represents_of_prove hwidth hx hfaithful.truthful hproof

/-- **There is no segment for three reasons only**: the run is not long enough
when the prover gives up waiting for it, there is no challenge, and the
prover is stopped. -/
theorem error_of_segmentAt (h : startWith o s d x parameters iterations accelerator bound = .ok r)
    (hx : Represents d x c) (hwidth : parameters.width ≤ 63) (hh : r.loop.Honest r.engine)
    (hk : k.InOrder r.loop r.engine) (herror : segmentAt d r.x k iterations = .error error) :
    k.opened.await iterations = .error error ∨ iterations ≠ 0 ∧
      (error = .form .noPrime ∧
          Challenge.prime d x (squareTimes d iterations x) = .error .noPrime ∨
        error = .stopped ∧ k.checked.stopRaised = true) := by
  cases hn : k.opened.await iterations with
  | error e =>
    rw [segmentAt, hn] at herror
    cases herror
    exact .inl rfl
  | ok n =>
    refine .inr ?_
    obtain ⟨hle, -⟩ := (Progress.await_eq_ok_iff _ _ _ _).1 hn
    have hopened := hle.trans (Run.sound h hx.definite hk.opened).published
    have hended := hk.opened.trans hk.ended
    have hfaithful := faithful_checkpoints h hx hh hk hopened
    simp only [segmentAt, hn, bind, Except.bind,
      result_eq h hx.definite hh hended (hopened.trans hk.ended.done_le),
      (recorded h hx.definite hh hk.opened).parameters_eq] at herror
    split at herror
    · rename_i hproof
      cases herror
      have hreasons := Power.error_of_prove hwidth hfaithful hproof
      rwa [(start_eq h).2, Challenge.prime_eq_of_represents hx.reduced hx (hx.along iterations)
        (hx.squareTimes iterations)] at hreasons
    · cases herror

/-- A segment that is right is sent. -/
theorem exists_encode (hbits : d.bits ≤ Discriminant.maxBits) (hright : segment.Right d c) :
    ∃ proof, Chain.encode d [segment] = .ok proof := by
  obtain ⟨output, houtput⟩ := Form.exists_encode hright.y.definite hbits
  obtain ⟨body, hbody⟩ := Form.exists_encode hright.definite_proof hbits
  exact ⟨_, Chain.encode_singleton_eq_ok_iff.2 ⟨output, body, houtput, hbody, rfl⟩⟩

/-- **What is sent of a run is what the plain prover sends** of any form of the
class, and no links. -/
theorem alone_of_proveFrom {z : Form} {proof : Proof}
    (h : startWith o s d x parameters iterations accelerator bound = .ok r)
    (hx : Represents d x c) (hz : Represents d z c) (hwidth : parameters.width ≤ 63)
    (hh : r.loop.Honest r.engine) (hk : k.InOrder r.loop r.engine)
    (hproof : proveFrom r k iterations = .ok proof) :
    proof.depth = 0 ∧ ∀ parameters : Parameters, parameters.width ≤ 63 →
      Alone.proveWith d z iterations parameters = .ok proof.bytes := by
  obtain ⟨segment, hsegment, hencode⟩ := bind_eq_ok_iff.1 hproof
  rw [(start_eq h).1] at hsegment hencode
  obtain ⟨hplace, hright⟩ := right_segmentAt h hx hwidth hh hk hsegment
  obtain ⟨hstart, rfl⟩ := Prod.mk.inj hplace
  obtain ⟨output, body, houtput, hbody, rfl⟩ := Chain.encode_singleton_eq_ok_iff.1 hencode
  exact ⟨rfl, fun parameters hwidth =>
    Alone.proveWith_of_right hz hwidth hright hstart houtput hbody⟩

/-- **Nothing is sent for three reasons only.** -/
theorem error_of_proveFrom (hbits : d.bits ≤ Discriminant.maxBits)
    (h : startWith o s d x parameters iterations accelerator bound = .ok r)
    (hx : Represents d x c) (hwidth : parameters.width ≤ 63) (hh : r.loop.Honest r.engine)
    (hk : k.InOrder r.loop r.engine) (herror : proveFrom r k iterations = .error error) :
    k.opened.await iterations = .error error ∨ iterations ≠ 0 ∧
      (error = .form .noPrime ∧
          Challenge.prime d x (squareTimes d iterations x) = .error .noPrime ∨
        error = .stopped ∧ k.checked.stopRaised = true) := by
  rw [proveFrom, (start_eq h).1] at herror
  cases hsegment : segmentAt d r.x k iterations with
  | error e =>
    rw [hsegment] at herror
    cases herror
    exact error_of_segmentAt h hx hwidth hh hk hsegment
  | ok segment =>
    obtain ⟨proof, hproof⟩ := exists_encode hbits (right_segmentAt h hx hwidth hh hk hsegment).2
    rw [hsegment] at herror
    cases herror.symm.trans hproof

/-- Where a run starts its prover looks at it once it goes no further. -/
theorem proveWith_eq
    (h : startWith o s d x.reduced parameters iterations accelerator (some iterations) = .ok r) :
    proveWith o s d x parameters iterations accelerator =
      proveFrom r (.at r.attend.engine) iterations := by
  rw [proveWith, h]
  rfl

/-- **A run is proven beside its prover as it is on its own.** For a squarefree
discriminant that forms are encoded for, any definite form, any length and
valid settings, and an honest fast path: at every moment no form was turned
away, each checkpoint that the run has come to is read back and so is the
last form. Whenever a prover looks at the run, what it sends is what the
plain prover sends, each with digits of its own; and it sends nothing only
if the run is not long enough, there is no challenge, or it is stopped. -/
theorem proves_as_alone (hbits : d.bits ≤ Discriminant.maxBits)
    (hsquarefree : Squarefree d.value.natAbs) (hx : x.Definite d.value)
    (hwidth : parameters.width ≤ 63)
    (h : startWith o s d x.reduced parameters iterations accelerator (some iterations) = .ok r)
    (hh : r.loop.Honest r.engine) :
    (∀ e, r.loop.Reaches r.engine e → e.listening.archive.full = false ∧
      (iterations ≤ e.done →
        e.listening.result = some (squareTimes d iterations x.reduced)) ∧
      ∀ i progress, parameters.stride * i ≤ e.done → parameters.stride * i ≤ iterations →
        (view e.listening).read progress i =
          .ok (squareTimes d (parameters.stride * i) x.reduced)) ∧
    (∀ k : Look UniformRecorder, k.InOrder r.loop r.engine →
      (∀ proof, proveFrom r k iterations = .ok proof → proof.depth = 0 ∧
        ∀ parameters : Parameters, parameters.width ≤ 63 →
          Alone.proveWith d x iterations parameters = .ok proof.bytes) ∧
      ∀ error, proveFrom r k iterations = .error error →
        k.opened.await iterations = .error error ∨ iterations ≠ 0 ∧
          (error = .form .noPrime ∧
              Challenge.prime d x (squareTimes d iterations x) = .error .noPrime ∨
            error = .stopped ∧ k.checked.stopRaised = true)) ∧
    ∀ proof, proveWith o s d x parameters iterations accelerator = .ok proof → proof.depth = 0 ∧
      (∀ parameters : Parameters, parameters.width ≤ 63 →
        Alone.proveWith d x iterations parameters = .ok proof.bytes) ∧
      Alone.prove d x iterations = .ok proof.bytes := by
  have hrep := Represents.of_squarefree (Int.squarefree_natAbs.1 hsquarefree) hx
  have hreduced := hrep.reduced
  have hlast := Challenge.prime_eq_of_represents hreduced hrep (hreduced.squareTimes iterations)
    (hrep.squareTimes iterations)
  refine ⟨fun e he => ⟨?_, fun hdone => ?_, fun i progress hdone hi => ?_⟩,
    fun k hk => ⟨fun proof hproof => ?_, fun error herror => ?_⟩, fun proof hproof => ?_⟩
  · exact (recorded h hreduced.definite hh he).kept.full_eq
  · rw [result_eq h hreduced.definite hh he hdone, hx.along_reduced]
  · rw [read_eq h hreduced.definite hh he hdone hi, hx.along_reduced]
  · exact alone_of_proveFrom h hreduced hrep hwidth hh hk hproof
  · have hreasons := error_of_proveFrom hbits h hreduced hwidth hh hk herror
    rwa [hlast] at hreasons
  · rw [proveWith_eq h] at hproof
    obtain ⟨hdepth, hbytes⟩ := alone_of_proveFrom h hreduced hrep hwidth hh
      (Look.inOrder_at r.reaches_attend) hproof
    exact ⟨hdepth, hbytes, hbytes _ (Parameters.approximate_width_le iterations)⟩

/-- A run of 36 squarings without a fast path, in batches of eight. -/
def run1823 : Run UniformRecorder where
  settings := { batchSize := 8 }
  x := form1823.reduced
  loop := { discriminant := discriminant1823, listener := UniformRecorder.listener
            batchSize := 8, bound := some 36 }
  engine := Loop.start form1823.reduced
    (UniformRecorder.startWith (.ofRun 36) form1823.reduced 36) false

/-- Thirty-six squarings of a form that is not reduced, proven with a
checkpoint for every ten of them. -/
theorem proves_as_alone_1823 :
    form1823.isReduced = false ∧ ∃ proof,
      prove .stops { batchSize := 8 } discriminant1823 form1823 36 .absent = .ok proof ∧
        proof.depth = 0 ∧
        (∀ parameters : Parameters, parameters.width ≤ 63 →
          Alone.proveWith discriminant1823 form1823 36 parameters = .ok proof.bytes) ∧
        Alone.prove discriminant1823 form1823 36 = .ok proof.bytes := by
  have hstart : startWith .stops { batchSize := 8 } discriminant1823 form1823.reduced (.ofRun 36) 36
      .absent (some 36) = .ok run1823 := by
    have hreduced : form1823.reduced.reduced = form1823.reduced := by decide +kernel
    refine Run.start_eq_ok_iff.2 ⟨(Settings.validate_eq_ok_iff _ _).1 rfl, ?_⟩
    rw [hreduced]
    rfl
  have hh : run1823.loop.unaided.Honest run1823.engine := Loop.honest_unaided
  obtain ⟨-, hlooks, hproof⟩ := proves_as_alone (by decide) squarefree1823 definite1823
    (Parameters.ofRun_width_le 36) hstart hh
  obtain ⟨-, hreasons⟩ := hlooks _ (Look.inOrder_at run1823.reaches_attend)
  have hlong : 36 ≤ run1823.attend.engine.progress.count := by decide +kernel
  have hwait := (run1823.attend.engine.progress.await_eq_ok_iff 36
    run1823.attend.engine.stopRaised _).2 ⟨hlong, rfl⟩
  have hgoing : run1823.attend.engine.stopRaised = false := by decide +kernel
  have hchallenge : Challenge.prime discriminant1823 form1823
      (squareTimes discriminant1823 36 form1823) ≠ .error .noPrime := challenge1823 0 9
  cases hprove : prove .stops { batchSize := 8 } discriminant1823 form1823 36 .absent with
  | ok proof =>
    obtain ⟨hdepth, hbytes, hsame⟩ := hproof proof hprove
    exact ⟨by decide, proof, rfl, hdepth, hbytes, hsame⟩
  | error error =>
    -- nothing keeps this run from being proven
    rw [prove, proveWith_eq hstart] at hprove
    rcases hreasons error hprove with h | ⟨-, ⟨-, h⟩ | ⟨-, h⟩⟩
    · cases hwait.symm.trans h
    · exact absurd h hchallenge
    · cases hgoing.symm.trans h

end Whole

end VerifiableDelay
