/-!
# Hexadecimal text

Bytes are shown as two lower-case digits each, and read in either case. The
reader works on the bytes of the text, so a character outside ASCII counts
for as many positions as its encoding has bytes, and the byte a refusal
names is shown as the character of that code.
-/

namespace VerifiableDelay

namespace Hex

/-- Why a text is not hexadecimal. -/
inductive Fault where
  /-- Half a byte is left over. -/
  | oddLength
  /-- The byte at this position is no digit. -/
  | invalidCharacter (byte : UInt8) (position : Nat)
  deriving Repr, DecidableEq

/-- The digit of a value below sixteen. -/
def digit (value : Nat) : Char := "0123456789abcdef".toList.getD value '0'

/-- The value of a digit, in either case. -/
def value? (byte : UInt8) : Option Nat :=
  let n := byte.toNat
  if 48 ≤ n ∧ n ≤ 57 then some (n - 48)
  else if 65 ≤ n ∧ n ≤ 70 then some (n - 55)
  else if 97 ≤ n ∧ n ≤ 102 then some (n - 87)
  else none

/-- Two digits per byte, high half first. -/
def digits : List UInt8 → List Char
  | [] => []
  | b :: rest => digit (b.toNat / 16) :: digit (b.toNat % 16) :: digits rest

/-- Bytes as text. -/
def encode (bytes : List UInt8) : String := String.ofList (digits bytes)

/-- Reads pairs of digits, the first at the given position. -/
def readPairs (position : Nat) : List UInt8 → Except Fault (List UInt8)
  | high :: low :: rest =>
    match value? high, value? low with
    | none, _ => .error (.invalidCharacter high position)
    | some _, none => .error (.invalidCharacter low (position + 1))
    | some h, some l => do
      let bytes ← readPairs (position + 2) rest
      return UInt8.ofNat (16 * h + l) :: bytes
  | [_] => .error .oddLength
  | [] => .ok []

/-- Reads hexadecimal bytes of text. An odd length is refused before any
digit is looked at. -/
def decode (text : List UInt8) : Except Fault (List UInt8) :=
  if text.length % 2 = 1 then .error .oddLength else readPairs 0 text

/-- Reads text after one optional leading `0x`. -/
def parse (text : String) : Except Fault (List UInt8) :=
  match text.toUTF8.data.toList with
  | 48 :: 120 :: rest => decode rest
  | bytes => decode bytes

/-- Text that `parse` reads back, with its mark. -/
def shown (bytes : List UInt8) : String := "0x" ++ encode bytes

/-- A character between quotes: quotes, backslashes and the usual control
characters by name, and what has no picture by its code. -/
def quoted (byte : UInt8) : String :=
  let n := byte.toNat
  let picture :=
    if n = 0 then "\\0"
    else if n = 9 then "\\t"
    else if n = 10 then "\\n"
    else if n = 13 then "\\r"
    else if n = 39 then "\\'"
    else if n = 92 then "\\\\"
    else if n < 32 ∨ (127 ≤ n ∧ n ≤ 160) ∨ n = 173 then
      "\\u\x7b" ++ String.ofList (Nat.toDigits 16 n) ++ "\x7d"
    else String.singleton (Char.ofNat n)
  "'" ++ picture ++ "'"

/-- The wording of a refusal. -/
def Fault.message : Fault → String
  | .oddLength => "Odd number of digits"
  | .invalidCharacter byte position =>
    "Invalid character " ++ quoted byte ++ " at position " ++ toString position

theorem length_digits (bytes : List UInt8) : (digits bytes).length = 2 * bytes.length := by
  induction bytes with
  | nil => rfl
  | cons b rest ih => simp [digits, ih]; omega

end Hex

end VerifiableDelay
