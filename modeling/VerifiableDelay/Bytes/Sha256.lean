import VerifiableDelay.Bytes.Fixed
/-!
# SHA-256

The digest that expands a seed into candidate primes. A message is padded
to whole blocks of sixteen words, and each block is mixed into a state of
eight words over sixty-four rounds. The words a round uses come from a
window of sixteen: its head is used up and the word the recurrence gives is
put at its end.
-/

namespace VerifiableDelay

namespace Sha256

/-- The eight words that are carried from block to block. -/
structure State where
  a : UInt32
  b : UInt32
  c : UInt32
  d : UInt32
  e : UInt32
  f : UInt32
  g : UInt32
  h : UInt32
  deriving Repr, DecidableEq

/-- The state before the first block: the first fractional bits of the
square roots of the first eight primes. -/
def State.initial : State where
  a := 0x6a09e667
  b := 0xbb67ae85
  c := 0x3c6ef372
  d := 0xa54ff53a
  e := 0x510e527f
  f := 0x9b05688c
  g := 0x1f83d9ab
  h := 0x5be0cd19

/-- One constant per round: the first fractional bits of the cube roots of
the first sixty-four primes. -/
def roundConstants : List UInt32 :=
  [0x428a2f98, 0x71374491, 0xb5c0fbcf, 0xe9b5dba5, 0x3956c25b, 0x59f111f1, 0x923f82a4,
   0xab1c5ed5, 0xd807aa98, 0x12835b01, 0x243185be, 0x550c7dc3, 0x72be5d74, 0x80deb1fe,
   0x9bdc06a7, 0xc19bf174, 0xe49b69c1, 0xefbe4786, 0x0fc19dc6, 0x240ca1cc, 0x2de92c6f,
   0x4a7484aa, 0x5cb0a9dc, 0x76f988da, 0x983e5152, 0xa831c66d, 0xb00327c8, 0xbf597fc7,
   0xc6e00bf3, 0xd5a79147, 0x06ca6351, 0x14292967, 0x27b70a85, 0x2e1b2138, 0x4d2c6dfc,
   0x53380d13, 0x650a7354, 0x766a0abb, 0x81c2c92e, 0x92722c85, 0xa2bfe8a1, 0xa81a664b,
   0xc24b8b70, 0xc76c51a3, 0xd192e819, 0xd6990624, 0xf40e3585, 0x106aa070, 0x19a4c116,
   0x1e376c08, 0x2748774c, 0x34b0bcb5, 0x391c0cb3, 0x4ed8aa4a, 0x5b9cca4f, 0x682e6ff3,
   0x748f82ee, 0x78a5636f, 0x84c87814, 0x8cc70208, 0x90befffa, 0xa4506ceb, 0xbef9a3f7,
   0xc67178f2]

/-- A word rotated right. -/
def rotate (x : UInt32) (n : UInt32) : UInt32 := (x >>> n) ||| (x <<< (32 - n))

/-- The word that follows a window of sixteen. -/
def nextWord (window : List UInt32) : UInt32 :=
  let x := window.getD 1 0
  let y := window.getD 14 0
  let low := rotate x 7 ^^^ rotate x 18 ^^^ (x >>> 3)
  let high := rotate y 17 ^^^ rotate y 19 ^^^ (y >>> 10)
  window.headD 0 + low + window.getD 9 0 + high

/-- One round: two words of the state are made anew and the rest move on by
one place. -/
def State.round (s : State) (constant word : UInt32) : State :=
  let mixE := rotate s.e 6 ^^^ rotate s.e 11 ^^^ rotate s.e 25
  let choose := (s.e &&& s.f) ^^^ (~~~s.e &&& s.g)
  let mixA := rotate s.a 2 ^^^ rotate s.a 13 ^^^ rotate s.a 22
  let majority := (s.a &&& s.b) ^^^ (s.a &&& s.c) ^^^ (s.b &&& s.c)
  let t := s.h + mixE + choose + constant + word
  { a := t + mixA + majority, b := s.a, c := s.b, d := s.c
    e := s.d + t, f := s.e, g := s.f, h := s.g }

/-- Wordwise sum. -/
def State.add (s t : State) : State :=
  { a := s.a + t.a, b := s.b + t.b, c := s.c + t.c, d := s.d + t.d
    e := s.e + t.e, f := s.f + t.f, g := s.g + t.g, h := s.h + t.h }

/-- Mixes a block of sixteen words into the state. -/
def State.compress (s : State) (block : List UInt32) : State :=
  let rounds := roundConstants.foldl
    (fun (state, window) constant =>
      (state.round constant (window.headD 0), window.tail ++ [nextWord window]))
    (s, block)
  s.add rounds.1

/-- Mixes in every whole block of a list of words. -/
def State.absorb (s : State) (words : List UInt32) : State :=
  if words.length < 16 then s
  else (s.compress (words.take 16)).absorb (words.drop 16)
termination_by words.length
decreasing_by simp; omega

/-- Groups bytes into big-endian words. -/
def wordsOf : List UInt8 → List UInt32
  | b₁ :: b₂ :: b₃ :: b₄ :: rest =>
    ((b₁.toUInt32 <<< 24) ||| (b₂.toUInt32 <<< 16) ||| (b₃.toUInt32 <<< 8) ||| b₄.toUInt32)
      :: wordsOf rest
  | _ => []

/-- The message, a one bit, zeros, and the length in bits, to a multiple of
sixty-four bytes. -/
def pad (message : List UInt8) : List UInt8 :=
  let n := message.length
  message ++ 0x80 :: List.replicate ((119 - n % 64) % 64) 0 ++ Bytes.toBigEndian 8 (8 * n)

/-- The thirty-two bytes of the digest. -/
def digest (message : List UInt8) : List UInt8 :=
  let s := State.initial.absorb (wordsOf (pad message))
  [s.a, s.b, s.c, s.d, s.e, s.f, s.g, s.h].flatMap fun word => Bytes.toBigEndian 4 word.toNat

@[simp] theorem length_digest (message : List UInt8) : (digest message).length = 32 := by
  simp [digest]

/-- A padded message is a whole number of blocks. -/
theorem length_pad (message : List UInt8) : (pad message).length % 64 = 0 := by
  simp [pad]
  omega

end Sha256

end VerifiableDelay
