import VerifiableDelay.Error
import VerifiableDelay.Form.Codec
import VerifiableDelay.Proof.Segment
/-!
# Chained proofs as bytes

The segments of a run follow one another, so of each only its length, its
last form and its proof are sent, and of the last segment no length. What is
sent is the last form of all, the proof of the last segment, and then a link
for each segment before it, the first segment last. The body is the same
without the last form of all: who knows the challenge of the last segment
can find that form.
-/

namespace VerifiableDelay

/-- A proof as bytes. -/
structure Proof where
  /-- The encoding of the last form. -/
  output : List UInt8
  body : List UInt8
  /-- Links in the body. -/
  depth : Nat
  deriving DecidableEq

/-- What is sent of a segment before the last. -/
structure Link where
  length : Nat
  y : Form
  proof : Form
  deriving DecidableEq

/-- A proof without its last form, read from bytes. -/
structure Body where
  proof : Form
  /-- In the order of the run. -/
  links : List Link
  deriving DecidableEq

/-- A proof read from bytes. -/
structure Chain extends Body where
  y : Form
  deriving DecidableEq

namespace Chain

/-- Links that a proof can carry. -/
def maxDepth : Nat := 63

/-- Bytes of the length in a link. -/
def lengthSize : Nat := 8

/-- Bytes of a link. -/
def linkSize : Nat := lengthSize + 2 * Codec.formSize

/-- Writes a link. -/
def writeLink (d : Discriminant) (l : Link) : Except FormError (List UInt8) := do
  return Bytes.toBigEndian lengthSize l.length ++ (← l.y.encode d) ++ (← l.proof.encode d)

/-- Writes links, the last of them first. -/
def writeLinks (d : Discriminant) : List Link → Except FormError (List UInt8)
  | [] => .ok []
  | l :: rest => do
    let later ← writeLinks d rest
    return later ++ (← writeLink d l)

/-- Reads a link. -/
def readLink (d : Discriminant) (bytes : List UInt8) : Except FormError Link := do
  let forms := bytes.drop lengthSize
  let y ← Form.decode d (forms.take Codec.formSize)
  let proof ← Form.decode d (forms.drop Codec.formSize)
  return { length := Bytes.ofBigEndian (bytes.take lengthSize), y, proof }

/-- Reads `depth` links, the last of the bytes first. -/
def readLinks (d : Discriminant) : (depth : Nat) → List UInt8 → Except FormError (List Link)
  | 0, _ => .ok []
  | depth + 1, bytes => do
    let l ← readLink d (bytes.drop (depth * linkSize))
    return l :: (← readLinks d depth (bytes.take (depth * linkSize)))

/-- What is sent of a segment. -/
def link (s : Segment) : Link := { length := s.length, y := s.y, proof := s.proof }

/-- **Writes** the segments of a run, in its order. -/
def encode (d : Discriminant) (segments : List Segment) : Except DelayError Proof :=
  match segments.getLast? with
  | none => .error (.segmentCount 0)
  | some last =>
    let inner := segments.dropLast
    if maxDepth < inner.length then .error (.segmentCount segments.length)
    else ofFormResult do
      let proof ← last.proof.encode d
      let links ← writeLinks d (inner.map link)
      return { output := ← last.y.encode d, body := proof ++ links, depth := inner.length }

/-- **Reads** a body of the given depth. -/
def decodeBody (d : Discriminant) (bytes : List UInt8) (depth : Nat) : Except FormError Body :=
  if maxDepth < depth then .error (.encoding .depth)
  else if bytes.length ≠ Codec.formSize + depth * linkSize then .error (.encoding .compactLength)
  else do
    let proof ← Form.decode d (bytes.take Codec.formSize)
    return { proof, links := ← readLinks d depth (bytes.drop Codec.formSize) }

/-- **Reads** a proof of the given depth. -/
def decode (d : Discriminant) (bytes : List UInt8) (depth : Nat) : Except FormError Chain :=
  if maxDepth < depth then .error (.encoding .depth)
  else if bytes.length ≠ 2 * Codec.formSize + depth * linkSize then .error (.encoding .length)
  else do
    let y ← Form.decode d (bytes.take Codec.formSize)
    let rest := bytes.drop Codec.formSize
    let proof ← Form.decode d (rest.take Codec.formSize)
    return { y, proof, links := ← readLinks d depth (rest.drop Codec.formSize) }

end Chain

/-- The bytes of a proof. -/
def Proof.bytes (p : Proof) : List UInt8 := p.output ++ p.body

end VerifiableDelay
