/-!
# The tokens of JSON text

Text is cut into tokens before any of it is understood. Of a string the
token keeps what it decodes to, and that may be nothing: an escape can name
half of a surrogate pair, which is no character, and still be well formed.
Of a number it keeps the value if that is written as a plain natural number.
-/

namespace VerifiableDelay

namespace Settings

/-- A token of JSON text. -/
inductive Token where
  | openBrace
  | closeBrace
  | openBracket
  | closeBracket
  | colon
  | comma
  /-- A string, with what it stands for. -/
  | text (value : Option String)
  /-- A number, with its value if written without sign, fraction or
  exponent. -/
  | number (value : Option Nat)
  /-- One of the three words there are. -/
  | word
  deriving Repr, DecidableEq

namespace Token

/-- A part of a string: a character as it stands, or a code unit of its
escape. -/
inductive Piece where
  | plain (c : Char)
  | code (unit : Nat)

/-- The value of a hexadecimal digit. -/
def hexValue? (c : Char) : Option Nat :=
  let n := c.toNat
  if 48 ≤ n ∧ n ≤ 57 then some (n - 48)
  else if 65 ≤ n ∧ n ≤ 70 then some (n - 55)
  else if 97 ≤ n ∧ n ≤ 102 then some (n - 87)
  else none

/-- The code unit that four digits name. -/
def unit? (a b c d : Char) : Option Nat := do
  return ((← hexValue? a) * 16 + (← hexValue? b)) * 256 +
    ((← hexValue? c) * 16 + (← hexValue? d))

/-- The character that a letter after a backslash stands for. -/
def escaped? (c : Char) : Option Char :=
  match c with
  | '"' => some '"'
  | '\\' => some '\\'
  | '/' => some '/'
  | 'b' => some (Char.ofNat 8)
  | 'f' => some (Char.ofNat 12)
  | 'n' => some (Char.ofNat 10)
  | 'r' => some (Char.ofNat 13)
  | 't' => some (Char.ofNat 9)
  | _ => none

/-- The rest of a string after its opening quote, and what follows it. -/
def pieces? : List Char → Option (List Piece × List Char)
  | '"' :: rest => some ([], rest)
  | '\\' :: 'u' :: a :: b :: c :: d :: rest => do
    let unit ← unit? a b c d
    let (more, rest) ← pieces? rest
    return (.code unit :: more, rest)
  | '\\' :: letter :: rest => do
    let c ← escaped? letter
    let (more, rest) ← pieces? rest
    return (.plain c :: more, rest)
  | c :: rest =>
    if c.toNat < 32 then none
    else do
      let (more, rest) ← pieces? rest
      return (.plain c :: more, rest)
  | [] => none

/-- Whether a code unit is the first half of a pair. -/
def isHigh (unit : Nat) : Bool := 0xd800 ≤ unit && unit < 0xdc00

/-- Whether a code unit is the second half of a pair. -/
def isLow (unit : Nat) : Bool := 0xdc00 ≤ unit && unit < 0xe000

/-- Joins the pieces; half a pair alone is no character. -/
def characters? : List Piece → Option (List Char)
  | [] => some []
  | .plain c :: rest => do return c :: (← characters? rest)
  | .code high :: .code low :: rest =>
    if isHigh high && isLow low then do
      return Char.ofNat (0x10000 + (high - 0xd800) * 1024 + (low - 0xdc00)) ::
        (← characters? rest)
    else if isHigh high || isLow high then none
    else do return Char.ofNat high :: (← characters? (.code low :: rest))
  | .code unit :: rest =>
    if isHigh unit || isLow unit then none
    else do return Char.ofNat unit :: (← characters? rest)

/-- Digits, at least one of them. -/
def digits? (text : List Char) : Option (List Char × List Char) :=
  match text.span Char.isDigit with
  | ([], _) => none
  | (digits, rest) => some (digits, rest)

/-- Digits of which the first is no zero, or a zero. -/
def integer? : List Char → Option (List Char × List Char)
  | '0' :: rest => some (['0'], rest)
  | rest => digits? rest

/-- A fraction, if there is one: whether there was, and what follows. -/
def fraction? : List Char → Option (Bool × List Char)
  | '.' :: rest => (digits? rest).map fun (_, rest) => (true, rest)
  | rest => some (false, rest)

/-- Drops a sign. -/
def dropSign : List Char → List Char
  | '+' :: rest => rest
  | '-' :: rest => rest
  | rest => rest

/-- An exponent, if there is one: whether there was, and what follows. -/
def exponent? (text : List Char) : Option (Bool × List Char) :=
  match text with
  | c :: rest =>
    if c = 'e' ∨ c = 'E' then (digits? (dropSign rest)).map fun (_, rest) => (true, rest)
    else some (false, text)
  | [] => some (false, [])

/-- The number that decimal digits name. -/
def ofDigits (digits : List Char) : Nat :=
  digits.foldl (fun n c => 10 * n + (c.toNat - 48)) 0

/-- A number after its sign. -/
def unsigned? (negative : Bool) (text : List Char) : Option (Token × List Char) := do
  let (digits, rest) ← integer? text
  let (hasFraction, rest) ← fraction? rest
  let (hasExponent, rest) ← exponent? rest
  let value := if negative || hasFraction || hasExponent then none else some (ofDigits digits)
  return (.number value, rest)

/-- A token that is not one character. -/
def long? : List Char → Option (Token × List Char)
  | '"' :: rest => do
    let (pieces, rest) ← pieces? rest
    return (.text ((characters? pieces).map String.ofList), rest)
  | 't' :: 'r' :: 'u' :: 'e' :: rest => some (.word, rest)
  | 'f' :: 'a' :: 'l' :: 's' :: 'e' :: rest => some (.word, rest)
  | 'n' :: 'u' :: 'l' :: 'l' :: rest => some (.word, rest)
  | '-' :: rest => unsigned? true rest
  | rest => unsigned? false rest

/-- A token of one character. -/
def mark? (c : Char) : Option Token :=
  if c = '\x7b' then some .openBrace
  else if c = '\x7d' then some .closeBrace
  else if c = '[' then some .openBracket
  else if c = ']' then some .closeBracket
  else if c = ':' then some .colon
  else if c = ',' then some .comma
  else none

/-- Whether a character only sets tokens apart. -/
def isBlank (c : Char) : Bool := c == ' ' || c == '\t' || c == '\n' || c == '\r'

/-- Cuts text into at most `fuel` tokens and blanks. -/
def scan : (fuel : Nat) → List Char → Option (List Token)
  | _, [] => some []
  | 0, _ => none
  | fuel + 1, c :: rest =>
    if isBlank c then scan fuel rest
    else
      match mark? c with
      | some mark => do return mark :: (← scan fuel rest)
      | none => do
        let (token, rest) ← long? (c :: rest)
        return token :: (← scan fuel rest)

/-- **The tokens of a text.** Each takes at least one character of it. -/
def ofText? (text : String) : Option (List Token) := scan text.length text.toList

end Token

end Settings

end VerifiableDelay
