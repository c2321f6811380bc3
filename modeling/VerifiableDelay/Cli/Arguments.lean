import VerifiableDelay.Integer.Size
/-!
# Options of a command

An option has a long name, after two dashes, and may have a letter, after
one. Its value follows as the next argument or in the same one: after an
equals sign, or for a letter also at once. A next argument that itself
begins with a dash is no value, unless it is nothing but the dash.
-/

namespace VerifiableDelay

namespace Cli

/-- An option of a command. -/
structure Flag where
  name : String
  letter : Option Char := none
  deriving Repr, DecidableEq

/-- The options given, by their long names, with the texts of their values. -/
abbrev Given := List (String × String)

/-- The option that an argument begins, and the value if it is there. -/
def beginOption? (flags : List Flag) (arg : List Char) : Option (String × Option String) :=
  match arg with
  | '-' :: '-' :: body =>
    let name := String.ofList (body.takeWhile (· != '='))
    let value := match body.dropWhile (· != '=') with
      | [] => none
      | _ :: value => some (String.ofList value)
    (flags.find? (·.name == name)).map fun flag => (flag.name, value)
  | '-' :: letter :: body =>
    let value := match body with
      | [] => none
      | '=' :: value => some (String.ofList value)
      | value => some (String.ofList value)
    (flags.find? (·.letter == some letter)).map fun flag => (flag.name, value)
  | _ => none

/-- Whether an argument can be the value of the option before it. -/
def canBeValue (arg : String) : Bool :=
  match arg.toList with
  | ['-'] => true
  | '-' :: _ => false
  | _ => true

/-- Reads options and their values; nothing else may be there. Two dashes
alone end the options. -/
def readGiven (flags : List Flag) : List String → Option Given
  | [] => some []
  | arg :: rest =>
    if arg == "--" then if rest.isEmpty then some [] else none
    else
      match beginOption? flags arg.toList with
      | none => none
      | some (name, some value) => do return (name, value) :: (← readGiven flags rest)
      | some (name, none) =>
        match rest with
        | value :: rest =>
          if canBeValue value then do return (name, value) :: (← readGiven flags rest)
          else none
        | [] => none

/-- Whether no option is given twice. -/
def Given.isSingle : Given → Bool
  | [] => true
  | (name, _) :: rest => rest.all (·.1 != name) && isSingle rest

/-- The text given for an option. -/
def Given.text? (given : Given) (name : String) : Option String := given.lookup name

/-- A natural number of a word in decimal digits, after an optional plus. -/
def readWord? (text : String) : Option Nat :=
  let digits := match text.toList with
    | '+' :: rest => rest
    | all => all
  if digits.isEmpty || !digits.all Char.isDigit then none
  else
    let n := digits.foldl (fun n c => 10 * n + (c.toNat - 48)) 0
    if n < wordCount then some n else none

/-- A value that has to be given and to be readable. -/
def Given.required? {α : Type} (given : Given) (name : String) (read : String → Option α) :
    Option α := do
  read (← given.text? name)

/-- A value that may be left out but has to be readable. -/
def Given.optional? {α : Type} (given : Given) (name : String) (read : String → Option α) :
    Option (Option α) :=
  match given.text? name with
  | none => some none
  | some text => (read text).map some

end Cli

end VerifiableDelay
