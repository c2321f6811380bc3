import VerifiableDelay.Integer.Size
import VerifiableDelay.Settings
import VerifiableDelay.Settings.Token
/-!
# Settings as JSON

Settings are written as one object, and read from an object or from an array
of the values in the order of writing. What is not given keeps its default.
The keys of an object must differ where they are known; what is not known is
passed over, though it has to be well formed. All values are natural
numbers, each of them a word or half a word.
-/

namespace VerifiableDelay

namespace Settings

/-- One setting as it is written. -/
structure Field where
  key : String
  /-- What it may be. -/
  fits : Nat → Bool := isWord
  get : Settings → Nat
  set : Settings → (n : Nat) → fits n → Settings

/-- The settings in the order they are written in. -/
def fields : List Field :=
  [{ key := "batch_size", get := batchSize
     set := fun s n h => { s with batchSize := n, batchSize_word := h } },
   { key := "stall_timeout_ms", get := stallTimeout
     set := fun s n h => { s with stallTimeout := n, stallTimeout_word := h } },
   { key := "poll_interval_ms", get := pollInterval
     set := fun s n h => { s with pollInterval := n, pollInterval_word := h } },
   { key := "segment_window", get := window
     set := fun s n h => { s with window := n, window_word := h } },
   { key := "segment_levels", get := levels
     set := fun s n h => { s with levels := n, levels_word := h } },
   { key := "segment_base_bits", fits := isHalfWord, get := baseBits
     set := fun s n h => { s with baseBits := n, baseBits_halfWord := h } },
   { key := "max_checkpoints", get := maxCheckpoints
     set := fun s n h => { s with maxCheckpoints := n, maxCheckpoints_word := h } },
   { key := "switch_iterations", get := switchIterations
     set := fun s n h => { s with switchIterations := n, switchIterations_word := h } },
   { key := "max_iterations", get := maxIterations
     set := fun s n h => { s with maxIterations := n, maxIterations_word := h } },
   { key := "halt_margin", get := haltMargin
     set := fun s n h => { s with haltMargin := n, haltMargin_word := h } },
   { key := "prover_threads", get := proverThreads
     set := fun s n h => { s with proverThreads := n, proverThreads_word := h } }]

/-- **Settings as text**, without blanks. -/
def toJson (s : Settings) : String :=
  let members := fields.map fun field => "\"" ++ field.key ++ "\":" ++ toString (field.get s)
  "\x7b" ++ ",".intercalate members ++ "\x7d"

/-- What a value passed over is inside of. -/
inductive Bracket where
  | list
  | record
  deriving DecidableEq

/-- What may come next in a value passed over. -/
inductive Place where
  | value
  /-- A value or the end of a list just begun. -/
  | element
  /-- A key or the end of a record just begun. -/
  | member
  | key
  | colon
  /-- A comma or the end of what is open. -/
  | separator

/-- After a value: either more of what is around it, or it was all. -/
def afterValue (opened : List Bracket) : List Bracket × Option Place :=
  (opened, if opened.isEmpty then none else some .separator)

/-- One token of a value passed over. -/
def passToken (opened : List Bracket) (place : Place) (token : Token) :
    Option (List Bracket × Option Place) :=
  match place, token, opened with
  | .element, .closeBracket, _ :: outer => some (afterValue outer)
  | .member, .closeBrace, _ :: outer => some (afterValue outer)
  | .separator, .closeBracket, .list :: outer => some (afterValue outer)
  | .separator, .closeBrace, .record :: outer => some (afterValue outer)
  | .separator, .comma, .list :: _ => some (opened, some .value)
  | .separator, .comma, .record :: _ => some (opened, some .key)
  | .member, .text _, _ => some (opened, some .colon)
  | .key, .text _, _ => some (opened, some .colon)
  | .colon, .colon, _ => some (opened, some .value)
  | .value, token, _ => begin token
  | .element, token, _ => begin token
  | _, _, _ => none
where
  /-- The first token of a value. -/
  begin : Token → Option (List Bracket × Option Place)
    | .openBracket => some (.list :: opened, some .element)
    | .openBrace => some (.record :: opened, some .member)
    | .text _ => some (afterValue opened)
    | .number _ => some (afterValue opened)
    | .word => some (afterValue opened)
    | _ => none

/-- Passes over what is open and gives the tokens after it. -/
def passOver (opened : List Bracket) (place : Place) : List Token → Option (List Token)
  | [] => none
  | token :: rest =>
    match passToken opened place token with
    | none => none
    | some (_, none) => some rest
    | some (opened, some place) => passOver opened place rest

/-- Takes a value as that of a field. -/
def Field.take? (field : Field) (s : Settings) : Token → Option Settings
  | .number (some n) => if h : field.fits n then some (field.set s n h) else none
  | _ => none

/-- Reads at most `fuel` members of an object, the first of which must be
there, and nothing after it. `seen` are the known keys so far. -/
def readMembers : (fuel : Nat) → (seen : List String) → Settings → List Token → Option Settings
  | fuel + 1, seen, s, .text (some key) :: .colon :: rest => do
    let (seen, s, rest) ← match fields.find? (·.key == key) with
      | none => do pure (seen, s, ← passOver [] .value rest)
      | some field =>
        match rest with
        | value :: rest =>
          if seen.contains key then none
          else do pure (key :: seen, ← field.take? s value, rest)
        | [] => none
    match rest with
    | [.closeBrace] => some s
    | .comma :: rest => readMembers fuel seen s rest
    | _ => none
  | _, _, _, _ => none

/-- Reads the elements of an array, the first of which must be there, and
nothing after it. -/
def readElements : List Field → Settings → List Token → Option Settings
  | field :: fields, s, value :: rest => do
    let s ← field.take? s value
    match rest with
    | [.closeBracket] => some s
    | .comma :: rest => readElements fields s rest
    | _ => none
  | _, _, _ => none

/-- **Reads settings.** -/
def ofJson? (text : String) : Option Settings := do
  match ← Token.ofText? text with
  | [.openBrace, .closeBrace] => some {}
  | .openBrace :: rest => readMembers rest.length [] {} rest
  | [.openBracket, .closeBracket] => some {}
  | .openBracket :: rest => readElements fields {} rest
  | _ => none

end Settings

end VerifiableDelay
