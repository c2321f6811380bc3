/-!
# Counters — stepping a byte string

Two ways to step a nonce kept as bytes. A counter is a number written most
significant byte first, and its step adds one. A ripple also moves every
byte it passes: it adds one to each byte from the last backwards and stops
at the first that wraps, so it stops where a counter would carry. Both are
defined on the reversed string, whose head is the byte they touch first.
-/

namespace VerifiableDelay

namespace Bytes

/-- Adds one to the head, and carries into the rest while it wraps. -/
def carryStep : List UInt8 → List UInt8
  | [] => []
  | b :: rest => if b + 1 = 0 then 0 :: carryStep rest else (b + 1) :: rest

/-- Adds one to every byte up to and including the first that wraps. -/
def rippleStep : List UInt8 → List UInt8
  | [] => []
  | b :: rest => if b + 1 = 0 then 0 :: rest else (b + 1) :: rippleStep rest

/-- Adds one to a number written most significant byte first, wrapping at
the length of the string. -/
def increment (bytes : List UInt8) : List UInt8 := (carryStep bytes.reverse).reverse

/-- Adds one to each byte from the last backwards, ending after the first
that wraps to zero. -/
def ripple (bytes : List UInt8) : List UInt8 := (rippleStep bytes.reverse).reverse

@[simp] theorem length_carryStep (bytes : List UInt8) :
    (carryStep bytes).length = bytes.length := by
  induction bytes with
  | nil => rfl
  | cons b rest ih => unfold carryStep; split <;> simp [ih]

@[simp] theorem length_rippleStep (bytes : List UInt8) :
    (rippleStep bytes).length = bytes.length := by
  induction bytes with
  | nil => rfl
  | cons b rest ih => unfold rippleStep; split <;> simp [ih]

@[simp] theorem length_increment (bytes : List UInt8) :
    (increment bytes).length = bytes.length := by simp [increment]

@[simp] theorem length_ripple (bytes : List UInt8) :
    (ripple bytes).length = bytes.length := by simp [ripple]

end Bytes

end VerifiableDelay
