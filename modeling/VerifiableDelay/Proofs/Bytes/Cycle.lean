import VerifiableDelay.Bytes.Counter
import VerifiableDelay.Proofs.Bytes.Complement
import Mathlib.Data.Fintype.EquivFin
import Mathlib.Dynamics.PeriodicPts.Defs
/-!
# The cycles of a nonce

A string of `n` bytes has `256 ^ n` values. A counter goes through them in the
order of the numbers they write. A ripple does not add: its last byte moves with
every step, and the bytes before it with every step but those at which it wraps.
So while the last byte comes round once the others are stepped `255` times, and
since that is odd and they have a power of two of values, it takes as many rounds
of the last byte to bring them round as if it had been one step. **Both steps go
through all strings of a length in one cycle** (`cycles_ripple`,
`cycles_increment`).
-/

namespace VerifiableDelay

-- powers of natural numbers are those of the core library
attribute [local instance (high)] instPowNat

namespace Bytes

open Function

variable {step : List UInt8 → List UInt8}

/-! ## Many steps at once -/

/-- Only the last value of a byte wraps. -/
theorem add_one_eq_zero_iff (b : UInt8) : b + 1 = 0 ↔ b.toNat = 255 := by
  have hb := b.toNat_lt
  rw [← UInt8.toNat_inj, UInt8.toNat_add]
  change (b.toNat + 1) % 256 = 0 ↔ _
  omega

/-- The head has moved with each of `k` steps, and what follows it with those at
which the head did not wrap. -/
theorem iterate_rippleStep_cons (b : UInt8) (rest : List UInt8) (k : Nat) :
    rippleStep^[k] (b :: rest) =
      UInt8.ofNat (b.toNat + k) :: rippleStep^[k - (b.toNat + k) / 256] rest := by
  have hb := b.toNat_lt
  induction k with
  | zero => simp [Nat.div_eq_of_lt hb]
  | succ k ih =>
    have hwrap := add_one_eq_zero_iff (UInt8.ofNat (b.toNat + k))
    rw [UInt8.toNat_ofNat'] at hwrap
    have hnext : UInt8.ofNat (b.toNat + k) + 1 = UInt8.ofNat (b.toNat + (k + 1)) := by
      rw [← UInt8.toNat_inj]
      simp [Nat.add_assoc]
    rw [iterate_succ_apply', ih, rippleStep]
    split_ifs with h
    · have hsame : k + 1 - (b.toNat + (k + 1)) / 256 = k - (b.toNat + k) / 256 := by
        have := hwrap.1 h
        omega
      rw [hsame, ← hnext, h]
    · have hmore : k + 1 - (b.toNat + (k + 1)) / 256 = k - (b.toNat + k) / 256 + 1 := by
        have := mt hwrap.2 h
        omega
      rw [hmore, iterate_succ_apply', hnext]

theorem ofNat_toNat_add_eq_iff (b : UInt8) (k : Nat) :
    UInt8.ofNat (b.toNat + k) = b ↔ 256 ∣ k := by
  have hb := b.toNat_lt
  rw [← UInt8.toNat_inj, UInt8.toNat_ofNat']
  omega

/-- **The first return**: a ripple comes back to a string after as many steps as
there are strings of its length, and not between. -/
theorem iterate_rippleStep_eq_iff (bytes : List UInt8) (k : Nat) :
    rippleStep^[k] bytes = bytes ↔ 256 ^ bytes.length ∣ k := by
  induction bytes generalizing k with
  | nil => simp [iterate_fixed (show rippleStep [] = [] from rfl) k]
  | cons b rest ih =>
    have hb := b.toNat_lt
    -- to come round, the bytes that follow the head are stepped 255 times as often as it wraps
    have hodd : Nat.Coprime (256 ^ rest.length) 255 := Nat.Coprime.pow_left _ (by decide)
    have hturns : ∀ j, 256 * j - (b.toNat + 256 * j) / 256 = 255 * j := by
      intro j
      omega
    rw [iterate_rippleStep_cons, List.cons.injEq, ofNat_toNat_add_eq_iff, ih, List.length_cons,
      Nat.pow_succ']
    constructor
    · rintro ⟨⟨j, rfl⟩, hrest⟩
      rw [hturns] at hrest
      exact Nat.mul_dvd_mul_left 256 (hodd.dvd_of_dvd_mul_left hrest)
    · intro hdvd
      obtain ⟨j, rfl⟩ := (Nat.dvd_mul_right 256 _).trans hdvd
      refine ⟨Nat.dvd_mul_right 256 j, ?_⟩
      rw [hturns]
      exact (Nat.dvd_of_mul_dvd_mul_left (by decide) hdvd).mul_left 255

theorem iterate_ripple (bytes : List UInt8) (k : Nat) :
    ripple^[k] bytes = (rippleStep^[k] bytes.reverse).reverse := by
  induction k with
  | zero => simp
  | succ k ih => rw [iterate_succ_apply', ih, ripple, List.reverse_reverse, iterate_succ_apply']

theorem ofLittleEndian_carryStep (bytes : List UInt8) :
    ofLittleEndian (carryStep bytes) = (ofLittleEndian bytes + 1) % 256 ^ bytes.length := by
  induction bytes with
  | nil => simp [carryStep, ofLittleEndian]
  | cons b rest ih =>
    have hb := b.toNat_lt
    have hlt := ofLittleEndian_lt rest
    rw [carryStep, ofLittleEndian, List.length_cons, Nat.pow_succ']
    split_ifs with h
    · -- the byte comes to zero, and what it carries is one of the rest
      have hlast := (add_one_eq_zero_iff b).1 h
      rw [ofLittleEndian, ih, hlast,
        show 255 + 256 * ofLittleEndian rest + 1 = 256 * (ofLittleEndian rest + 1) by ring,
        Nat.mul_mod_mul_left]
      exact Nat.zero_add _
    · have hmore := mt (add_one_eq_zero_iff b).2 h
      have hsucc : (b + 1).toNat = b.toNat + 1 := by
        rw [UInt8.toNat_add]
        change (b.toNat + 1) % 256 = _
        omega
      rw [ofLittleEndian, hsucc, Nat.mod_eq_of_lt (by omega)]
      ring

/-- **A counter adds one** to the number, modulo as many as there are. -/
theorem ofBigEndian_increment (bytes : List UInt8) :
    ofBigEndian (increment bytes) = (ofBigEndian bytes + 1) % 256 ^ bytes.length := by
  rw [ofBigEndian, increment, List.reverse_reverse, ofLittleEndian_carryStep, List.length_reverse,
    ofBigEndian]

theorem length_iterate (hlen : ∀ bytes, (step bytes).length = bytes.length) (k : Nat)
    (bytes : List UInt8) : (step^[k] bytes).length = bytes.length := by
  induction k with
  | zero => rfl
  | succ k ih => rw [iterate_succ_apply', hlen, ih]

theorem ofBigEndian_iterate_increment (bytes : List UInt8) (k : Nat) :
    ofBigEndian (increment^[k] bytes) = (ofBigEndian bytes + k) % 256 ^ bytes.length := by
  induction k with
  | zero => exact (Nat.mod_eq_of_lt (ofBigEndian_lt bytes)).symm
  | succ k ih =>
    rw [iterate_succ_apply', ofBigEndian_increment, length_iterate length_increment, ih,
      Nat.mod_add_mod, Nat.add_assoc]

/-- The first return of a counter. -/
theorem iterate_increment_eq_iff (bytes : List UInt8) (k : Nat) :
    increment^[k] bytes = bytes ↔ 256 ^ bytes.length ∣ k := by
  have hlt := ofBigEndian_lt bytes
  have hiter := ofBigEndian_iterate_increment bytes k
  constructor
  · intro h
    rw [h] at hiter
    have := Nat.div_add_mod (ofBigEndian bytes + k) (256 ^ bytes.length)
    exact ⟨(ofBigEndian bytes + k) / 256 ^ bytes.length, by omega⟩
  · rintro ⟨j, rfl⟩
    rw [Nat.add_mul_mod_self_left, Nat.mod_eq_of_lt hlt] at hiter
    exact eq_of_ofBigEndian_eq (length_iterate length_increment _ _) hiter

/-- The first return of a ripple. -/
theorem iterate_ripple_eq_iff (bytes : List UInt8) (k : Nat) :
    ripple^[k] bytes = bytes ↔ 256 ^ bytes.length ∣ k := by
  rw [iterate_ripple, List.reverse_eq_iff, iterate_rippleStep_eq_iff, List.length_reverse]

/-! ## One cycle -/

/-- **One cycle through all strings of a length**: none is left out and none is
come to twice, and a seed is back after as many steps as there are strings. -/
structure Cycles (step : List UInt8 → List UInt8) (n : Nat) : Prop where
  bijOn : Set.BijOn step {bytes | bytes.length = n} {bytes | bytes.length = n}
  minimalPeriod_eq : ∀ seed : List UInt8, seed.length = n → minimalPeriod step seed = 256 ^ n
  injOn : ∀ seed : List UInt8, seed.length = n → Set.InjOn (step^[·] seed) (Set.Iio (256 ^ n))
  reaches : ∀ seed bytes : List UInt8, seed.length = n → bytes.length = n →
    ∃ k < 256 ^ n, step^[k] seed = bytes

section Return

variable (hlen : ∀ bytes, (step bytes).length = bytes.length)
variable (hreturn : ∀ bytes k, step^[k] bytes = bytes ↔ 256 ^ bytes.length ∣ k)

include hreturn in
theorem minimalPeriod_of_return (seed : List UInt8) :
    minimalPeriod step seed = 256 ^ seed.length := by
  apply Nat.dvd_antisymm
  · exact isPeriodicPt_iff_minimalPeriod_dvd.1 ((hreturn seed _).2 dvd_rfl)
  · exact (hreturn seed _).1 (iterate_minimalPeriod)

include hlen hreturn in
/-- As many distinct strings as there are leave none out. -/
theorem exists_iterate_eq {seed bytes : List UInt8} (h : bytes.length = seed.length) :
    ∃ k < 256 ^ seed.length, step^[k] seed = bytes := by
  have hiter : ∀ k, (step^[k] seed).length = seed.length := fun k => length_iterate hlen k seed
  have hlt : ∀ k, ofBigEndian (step^[k] seed) < 256 ^ seed.length := by
    intro k
    rw [← hiter k]
    exact ofBigEndian_lt _
  have hinj : Injective fun k : Fin (256 ^ seed.length) =>
      (⟨ofBigEndian (step^[k] seed), hlt k⟩ : Fin (256 ^ seed.length)) := by
    intro i j hij
    have hsame : step^[i] seed = step^[j] seed :=
      eq_of_ofBigEndian_eq ((hiter i).trans (hiter j).symm) (Fin.mk.inj hij)
    rw [iterate_eq_iterate_iff_of_lt_minimalPeriod] at hsame
    · exact Fin.ext hsame
    all_goals
      rw [minimalPeriod_of_return hreturn]
      exact Fin.isLt _
  obtain ⟨k, hk⟩ := Finite.injective_iff_surjective.1 hinj
    ⟨ofBigEndian bytes, by rw [← h]; exact ofBigEndian_lt bytes⟩
  exact ⟨k, k.isLt, eq_of_ofBigEndian_eq ((hiter k).trans h.symm) (Fin.mk.inj hk)⟩

include hlen hreturn in
/-- **What is known of the returns makes one cycle.** -/
theorem cycles_of_return (n : Nat) : Cycles step n where
  bijOn := by
    have hround : ∀ bytes, step^[256 ^ bytes.length - 1 + 1] bytes = bytes := by
      intro bytes
      rw [Nat.sub_add_cancel (Nat.pow_pos (by decide))]
      exact (hreturn bytes _).2 dvd_rfl
    refine ⟨fun bytes h => (hlen bytes).trans h, fun x hx y hy h => ?_, fun bytes h => ?_⟩
    · rw [← hround x, ← hround y, iterate_succ_apply, iterate_succ_apply, h, hx, hy]
    · refine ⟨step^[256 ^ bytes.length - 1] bytes, (length_iterate hlen _ _).trans h, ?_⟩
      rw [← iterate_succ_apply' step, hround]
  minimalPeriod_eq seed h := h ▸ minimalPeriod_of_return hreturn seed
  injOn seed h := by
    rw [← h, ← minimalPeriod_of_return hreturn seed]
    exact iterate_injOn_Iio_minimalPeriod
  reaches seed bytes hseed hbytes := by
    subst hseed
    exact exists_iterate_eq hlen hreturn hbytes

end Return

/-- **A ripple goes through all strings of a length in one cycle.** -/
theorem cycles_ripple (n : Nat) : Cycles ripple n :=
  cycles_of_return length_ripple iterate_ripple_eq_iff n

/-- **And so does a counter.** -/
theorem cycles_increment (n : Nat) : Cycles increment n :=
  cycles_of_return length_increment iterate_increment_eq_iff n

/-- Where the last byte wraps a counter moves the one before it, and a ripple does not. -/
example : increment [1, 254, 255] = [1, 255, 0] ∧ ripple [1, 254, 255] = [1, 254, 0] := by
  decide

end Bytes

end VerifiableDelay
