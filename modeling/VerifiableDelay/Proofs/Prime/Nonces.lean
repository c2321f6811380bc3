import VerifiableDelay.Prime.Search
import VerifiableDelay.Proofs.Bytes.Cycle
/-!
# The nonces of a search

A search for a prime is written here with its digests left to be asked for, so
that one who answers can note what was asked. **What a search hashes are the
successors of its seed**, in their order and each when its turn comes
(`PrimeSearch.runWith_note`). They run through a cycle of all strings of the
seed's length, so no nonce is hashed again before there is none left that was
not.
-/

namespace VerifiableDelay

-- powers of natural numbers are those of the core library
attribute [local instance (high)] instPowNat

namespace PrimeSearch

open Function

/-! ## Digests that are asked for -/

section Asked

variable {M : Type → Type} [Monad M] (digest : List UInt8 → M (List UInt8))
variable (step : List UInt8 → List UInt8)

/-- Steps the nonce and asks for its digest until `width` bytes are filled. -/
def fillWith (width : Nat) (nonce : List UInt8) : M (List UInt8 × List UInt8) :=
  if width = 0 then pure ([], nonce)
  else do
    let bytes ← digest (step nonce)
    let (rest, last) ← fillWith (width - 32) (step nonce)
    pure (bytes.take width ++ rest, last)
termination_by width

/-- Looks at `count` candidates, asking for the digests they are made of. -/
def searchFromWith (width : Nat) (forced : List Nat) : Nat → List UInt8 → M (Option Nat)
  | 0, _ => pure none
  | count + 1, nonce => do
    let (bytes, nonce) ← fillWith digest step width nonce
    let candidate := force forced (Bytes.ofBigEndian bytes)
    if isProbablePrime candidate then pure (some candidate)
    else searchFromWith width forced count nonce

/-- The first prime, by the digests that are given. -/
def runWith (seed : List UInt8) (length : Nat) (forced : List Nat) : M (Except FormError Nat) :=
  if length = 0 ∨ length % 8 ≠ 0 then pure (.error (.primeParameters .length))
  else if seed.isEmpty then pure (.error (.primeParameters .emptySeed))
  else if forced.any (length ≤ ·) then pure (.error (.primeParameters .forcedBit))
  else do
    match ← searchFromWith digest step (length / 8) forced (256 ^ seed.length) seed with
    | some p => pure (.ok p)
    | none => pure (.error .noPrime)

end Asked

/-- Answers with the digest of a nonce, and notes the nonce. -/
def note (nonce : List UInt8) : StateM (List (List UInt8)) (List UInt8) := do
  modify (· ++ [nonce])
  return Sha256.digest nonce

/-! ## What is noted -/

variable {step : List UInt8 → List UInt8} {seed : List UInt8}

/-- The first `k` strings that a seed is stepped to. -/
def successors (step : List UInt8 → List UInt8) (seed : List UInt8) (k : Nat) :
    List (List UInt8) :=
  (List.range k).map fun i => step^[i + 1] seed

theorem successors_zero : successors step seed 0 = [] := rfl

theorem successors_succ (k : Nat) :
    successors step seed (k + 1) = step seed :: successors step (step seed) k := by
  simp [successors, List.range_succ_eq_map, Function.comp_def]

/-- Those after the first `k` are the first of the string come to then. -/
theorem successors_add (k j : Nat) :
    successors step seed (k + j) =
      successors step seed k ++ successors step (step^[k] seed) j := by
  induction k generalizing seed with
  | zero => simp [successors_zero]
  | succ k ih =>
    rw [Nat.add_right_comm, successors_succ, ih, successors_succ, List.cons_append,
      iterate_succ_apply]

theorem fill_of_ne {width : Nat} (h : width ≠ 0) (nonce : List UInt8) :
    fill step width nonce =
      ((Sha256.digest (step nonce)).take width ++ (fill step (width - 32) (step nonce)).1,
        (fill step (width - 32) (step nonce)).2) := by
  rw [fill, if_neg h]

/-- The first digest is noted, and then what the rest of the candidate takes. -/
theorem fillWith_note_of_ne {width : Nat} (h : width ≠ 0) (nonce : List UInt8)
    (noted : List (List UInt8)) :
    (fillWith note step width nonce).run noted =
      (((Sha256.digest (step nonce)).take width ++
          ((fillWith note step (width - 32) (step nonce)).run (noted ++ [step nonce])).1.1,
        ((fillWith note step (width - 32) (step nonce)).run (noted ++ [step nonce])).1.2),
        ((fillWith note step (width - 32) (step nonce)).run (noted ++ [step nonce])).2) := by
  rw [fillWith, if_neg h]
  rfl

/-- A candidate is filled by the successors of the nonce it begins at, up to the
one it ends at. It takes one at least. -/
theorem fillWith_note (step : List UInt8 → List UInt8) (width : Nat) (nonce : List UInt8)
    (noted : List (List UInt8)) :
    ∃ k, (width ≠ 0 → 0 < k) ∧ (fill step width nonce).2 = step^[k] nonce ∧
      (fillWith note step width nonce).run noted =
        (fill step width nonce, noted ++ successors step nonce k) := by
  induction width using Nat.strong_induction_on generalizing nonce noted with
  | _ width ih =>
    by_cases h : width = 0
    · subst h
      refine ⟨0, fun h => absurd rfl h, ?_, ?_⟩
      · rw [fill, if_pos rfl]
        rfl
      · rw [fillWith, if_pos rfl, fill, if_pos rfl, successors_zero, List.append_nil]
        rfl
    · obtain ⟨k, -, hlast, hrun⟩ := ih (width - 32) (by omega) (step nonce) (noted ++ [step nonce])
      refine ⟨k + 1, fun _ => Nat.succ_pos k, ?_, ?_⟩
      · rw [fill_of_ne h, iterate_succ_apply]
        exact hlast
      · rw [fillWith_note_of_ne h, hrun, fill_of_ne h, successors_succ, List.append_assoc]
        rfl

/-- And so are the candidates of a search, one after the other. -/
theorem searchFromWith_note (step : List UInt8 → List UInt8) {width : Nat} (hwidth : width ≠ 0)
    (forced : List Nat) (count : Nat) (nonce : List UInt8) (noted : List (List UInt8)) :
    ∃ k, (searchFrom step width forced count nonce = none → count ≤ k) ∧
      (searchFromWith note step width forced count nonce).run noted =
        (searchFrom step width forced count nonce, noted ++ successors step nonce k) := by
  induction count generalizing nonce noted with
  | zero =>
    refine ⟨0, fun _ => le_rfl, ?_⟩
    rw [successors_zero, List.append_nil]
    rfl
  | succ count ih =>
    obtain ⟨k, hpos, hlast, hrun⟩ := fillWith_note step width nonce noted
    rw [searchFromWith, StateT.run_bind, hrun, searchFrom]
    generalize fill step width nonce = filled at *
    obtain ⟨bytes, last⟩ := filled
    change ∃ k, _ ∧ (if isProbablePrime (force forced (Bytes.ofBigEndian bytes)) then
        pure (some (force forced (Bytes.ofBigEndian bytes)))
      else searchFromWith note step width forced count last).run _ = _
    dsimp only at hlast ⊢
    split_ifs
    · exact ⟨k, nofun, rfl⟩
    · obtain ⟨j, hcount, hj⟩ := ih last (noted ++ successors step nonce k)
      refine ⟨k + j, fun h => ?_, ?_⟩
      · have := hpos hwidth
        have := hcount h
        omega
      · rw [hj, successors_add, hlast, List.append_assoc]

/-- **What a search hashes are the successors of its seed**, in their order; and
noting them changes nothing. If it finds no prime they are as many as the seed's
length has strings. -/
theorem runWith_note (step : List UInt8 → List UInt8) (seed : List UInt8) (length : Nat)
    (forced : List Nat) :
    ∃ k, (runWith note step seed length forced).run [] =
        (run step seed length forced, successors step seed k) ∧
      (256 ^ seed.length ≤ k ∨ run step seed length forced ≠ .error .noPrime) := by
  rw [runWith, run]
  split_ifs with hlength
  · exact ⟨0, rfl, .inr nofun⟩
  · exact ⟨0, rfl, .inr nofun⟩
  · exact ⟨0, rfl, .inr nofun⟩
  · obtain ⟨k, hcount, hk⟩ := searchFromWith_note step (show length / 8 ≠ 0 by omega)
      forced (256 ^ seed.length) seed []
    refine ⟨k, ?_⟩
    rw [StateT.run_bind, hk]
    cases hfound : searchFrom step (length / 8) forced (256 ^ seed.length) seed with
    | none => exact ⟨rfl, .inl (hcount hfound)⟩
    | some p => exact ⟨rfl, .inr nofun⟩

/-- The first successors of a seed are distinct, as many as its length has strings:
the seed itself is the last of them. -/
theorem nodup_take_successors (h : Bytes.Cycles step seed.length) (k : Nat) :
    ((successors step seed k).take (256 ^ seed.length)).Nodup := by
  have hstep : (step seed).length = seed.length := h.bijOn.mapsTo rfl
  rw [successors, ← List.map_take, List.take_range]
  refine List.Nodup.map_on (fun i hi j hj hij => ?_) List.nodup_range
  rw [iterate_succ_apply, iterate_succ_apply] at hij
  exact h.injOn _ hstep ((List.mem_range.1 hi).trans_le (Nat.min_le_left _ _))
    ((List.mem_range.1 hj).trans_le (Nat.min_le_left _ _)) hij

/-- **A nonce is not hashed again before all others were.** On strings of any
length both steps are bijections that make one cycle, a ripple as well as a
counter, which adds one to the number modulo `256` to the length. So among the
first `256 ^ seed.length` nonces that a search for a prime hashes there are no two
the same; and one that ends without a prime has hashed so many. -/
theorem nonces_never_repeat (n : Nat) (seed : List UInt8) (length : Nat) (forced : List Nat) :
    (Bytes.Cycles Bytes.ripple n ∧ Bytes.Cycles Bytes.increment n) ∧
    Bytes.ofBigEndian (Bytes.increment seed) =
      (Bytes.ofBigEndian seed + 1) % 256 ^ seed.length ∧
    (∃ k, (runWith note Bytes.ripple seed length forced).run [] =
        (hashToPrime seed length forced, successors Bytes.ripple seed k) ∧
      ((successors Bytes.ripple seed k).take (256 ^ seed.length)).Nodup ∧
      (256 ^ seed.length ≤ k ∨ hashToPrime seed length forced ≠ .error .noPrime)) ∧
    ∃ k, (runWith note Bytes.increment seed length forced).run [] =
        (countToPrime seed length forced, successors Bytes.increment seed k) ∧
      ((successors Bytes.increment seed k).take (256 ^ seed.length)).Nodup ∧
      (256 ^ seed.length ≤ k ∨ countToPrime seed length forced ≠ .error .noPrime) := by
  obtain ⟨k, hk, hnone⟩ := runWith_note Bytes.ripple seed length forced
  obtain ⟨j, hj, hnone'⟩ := runWith_note Bytes.increment seed length forced
  exact ⟨⟨Bytes.cycles_ripple n, Bytes.cycles_increment n⟩, Bytes.ofBigEndian_increment seed,
    ⟨k, hk, nodup_take_successors (Bytes.cycles_ripple _) k, hnone⟩,
    ⟨j, hj, nodup_take_successors (Bytes.cycles_increment _) j, hnone'⟩⟩

end PrimeSearch

end VerifiableDelay
