import VerifiableDelay.Bytes.Fixed
import VerifiableDelay.Form.Basic
import VerifiableDelay.Form.Compressed
/-!
# The encoding of forms

A form of a discriminant of up to 1024 bits takes one hundred bytes: a byte
of flags, the length of the common factor, and the fields of its compressed
representation at widths that follow from the two lengths, padded with
zeros. The neutral form and the form `(2, 1)` are a flag alone. Reading
accepts what writing gives and nothing else, so every reduced form has one
encoding.
-/

namespace VerifiableDelay

namespace Codec

/-- Bytes of an encoded form. -/
def formSize : Nat := 100

/-- Bytes that can be other than zero in the encoding of a form, by the
length of its discriminant. -/
def compressedSize (bits : Nat) : Nat := (bits + 31) / 32 * 3 + 4

/-- The length of a discriminant up to a multiple of a field's step. -/
def roundedBits (bits : Nat) : Nat := (bits + 31) / 32 * 32

/-- Flag of a negative middle coefficient. -/
def negativeFlag : UInt8 := 1

/-- Flag of a negative cofactor. -/
def cofactorFlag : UInt8 := 2

/-- Flag of the neutral form. -/
def identityFlag : UInt8 := 4

/-- Flag of the form `(2, 1)`. -/
def generatorFlag : UInt8 := 8

/-- A flag, or nothing. -/
def flagIf (flag : UInt8) (set : Bool) : UInt8 := if set then flag else 0

/-- Whether a flag is set in a byte of flags. -/
def hasFlag (flags flag : UInt8) : Bool := flags &&& flag != 0

/-- Magnitudes in fields of the given widths, in order. `bits` is the size
to blame for one that does not fit. -/
def writeFields (bits : Nat) : List (Nat × Int) → Except FormError (List UInt8)
  | [] => .ok []
  | (width, x) :: rest =>
    match Bytes.padded? width x.natAbs with
    | none => .error (.overflow bits)
    | some field => do return field ++ (← writeFields bits rest)

/-- The widths of the four fields, for a rounded length of discriminant and
the length of the common factor less one. -/
def fieldWidths (bits factorSize : Nat) : List Nat :=
  [bits / 16 - factorSize, bits / 32 - factorSize, factorSize + 1, factorSize + 1]

/-- Writes a compressed form, without padding. -/
def writeCompressed (bits : Nat) (c : Compressed) : Except FormError (List UInt8) :=
  let bits := roundedBits bits
  let factorSize := byteLength c.g.natAbs - 1
  if bits / 32 ≤ factorSize then .error (.overflow bits)
  else do
    let flags := flagIf negativeFlag c.negative ||| flagIf cofactorFlag (c.t < 0)
    let fields ← writeFields bits ((fieldWidths bits factorSize).zip [c.a, c.t, c.g, c.b₀])
    return flags :: UInt8.ofNat factorSize :: fields

/-- Reads numbers from fields of the given widths, in order. -/
def readFields : List Nat → List UInt8 → Except FormError (List Nat)
  | [], _ => .ok []
  | width :: widths, bytes =>
    if bytes.length < width then .error (.encoding .truncated)
    else do
      return Bytes.ofLittleEndian (bytes.take width) :: (← readFields widths (bytes.drop width))

/-- Reads a compressed form, and no padding. -/
def readCompressed (bits : Nat) (flags factorSize : UInt8) (bytes : List UInt8) :
    Except FormError Compressed :=
  let bits := roundedBits bits
  if bits / 32 ≤ factorSize.toNat then .error (.encoding .factorSize)
  else do
    match ← readFields (fieldWidths bits factorSize.toNat) bytes with
    | [a, t, g, b₀] =>
      return { a, t := if hasFlag flags cofactorFlag then -t else t, g, b₀
               negative := hasFlag flags negativeFlag }
    | _ => .error (.encoding .truncated)

/-- Zeros up to the size of an encoded form. -/
def padForm (bytes : List UInt8) : List UInt8 :=
  bytes ++ List.replicate (formSize - bytes.length) 0

/-- Encodes the leading coefficients of a reduced form, for a discriminant
of the given length. -/
def encodeLeading (bits : Nat) (a b : Int) : Except FormError (List UInt8) :=
  if Discriminant.maxBits < bits then .error (.overflow bits)
  else if b = 1 ∧ a ≤ 2 then .ok (padForm [if a = 2 then generatorFlag else identityFlag])
  else
    match Compressed.of? a b with
    | none => .error .notCompressible
    | some c => do return padForm (← writeCompressed bits c)

/-- The leading coefficients that bytes stand for, before it is asked
whether these are the bytes to write for them. -/
def readLeading (d : Int) (bits : Nat) : List UInt8 → Except FormError (Int × Int)
  | flags :: factorSize :: fields =>
    if hasFlag flags generatorFlag then .ok (2, 1)
    else if hasFlag flags identityFlag then .ok (1, 1)
    else do (← readCompressed bits flags factorSize fields).expand d
  | _ => .error (.encoding .bufferSize)

/-- **Decodes leading coefficients**, from the one encoding they have. -/
def decodeLeading (d : Int) (bits : Nat) (bytes : List UInt8) : Except FormError (Int × Int) :=
  if bytes.length ≠ formSize then .error (.encoding .bufferSize)
  else if Discriminant.maxBits < bits then .error (.encoding .discriminantSize)
  else do
    let (a, b) ← readLeading d bits bytes
    match encodeLeading bits a b with
    | .error _ => .error (.encoding .doesNotFit)
    | .ok canonical =>
      if canonical = bytes then .ok (a, b) else .error (.encoding .notCanonical)

end Codec

namespace Form

/-- **The encoding** of the class of a form: that of its reduced form. -/
def encode (d : Discriminant) (f : Form) : Except FormError (List UInt8) :=
  let f := if f.isReduced then f else f.reduced
  Codec.encodeLeading d.bits f.a f.b

/-- **The reduced form** of the discriminant that bytes encode. -/
def decode (d : Discriminant) (bytes : List UInt8) : Except FormError Form := do
  let (a, b) ← Codec.decodeLeading d.value d.bits bytes
  if (b * b - d.value) % (4 * a) ≠ 0 then .error (.encoding .otherDiscriminant)
  else
    let f : Form := ⟨a, b, (b * b - d.value) / (4 * a)⟩
    if f.isReduced then .ok f else .error (.encoding .notReduced)

end Form

end VerifiableDelay
