import VerifiableDelay.Bytes.Hex
import VerifiableDelay.Cli.Arguments
import VerifiableDelay.Proof.Segmented
import VerifiableDelay.Proof.Thirds
import VerifiableDelay.Proof.Verify
import VerifiableDelay.Settings.Json
/-!
# Commands

What can be asked for on a command line, and the answers: a discriminant, a
proof, or whether a proof is accepted.
-/

namespace VerifiableDelay

namespace Cli

/-- The seed and size of a discriminant. -/
structure Group where
  challenge : List UInt8
  bits : Nat

/-- A number of squarings of a form, of the generator if none is given. -/
structure Statement where
  group : Group
  iterations : Nat
  x : Option (List UInt8)

/-- How a proof is made. -/
inductive Mode where
  /-- In one go. -/
  | slow
  /-- From the checkpoints of a run. -/
  | one
  /-- From a run of unknown length. -/
  | two
  deriving Repr, DecidableEq

/-- A command. -/
inductive Command where
  | version
  | createDiscriminant (group : Group)
  | prove (statement : Statement) (mode : Mode) (config : Option String)
  | proveSegmented (statement : Statement) (config : Option String)
  | verify (statement : Statement) (proof : List UInt8) (depth : Nat)

/-- Why a command that was understood gave no answer. -/
inductive CommandError where
  | form (error : FormError)
  | delay (error : DelayError)
  | reading (path : String)
  | malformedSettings
  | rejected

/-- The wording of an error. -/
def CommandError.message : CommandError → String
  | .form error => error.message
  | .delay error => error.message
  | .reading path => "reading " ++ path
  | .malformedSettings => "malformed settings"
  | .rejected => "proof rejected"

/-- What a program leaves behind. -/
structure Exit where
  code : Nat
  output : String := ""
  /-- The first line of what it says of an error. -/
  message : Option String := none

/-! ## Reading commands -/

/-- Bytes in hexadecimal digits. -/
def readBytes? (text : String) : Option (List UInt8) :=
  match Hex.parse text with
  | .ok bytes => some bytes
  | .error _ => none

/-- A mode by its name. -/
def readMode? (text : String) : Option Mode :=
  match text with
  | "slow" => some .slow
  | "one" => some .one
  | "two" => some .two
  | _ => none

def challengeFlag : Flag := { name := "challenge", letter := some 'c' }
def bitsFlag : Flag := { name := "bits" }
def iterationsFlag : Flag := { name := "iterations", letter := some 'n' }
def xFlag : Flag := { name := "x" }
def modeFlag : Flag := { name := "mode" }
def configFlag : Flag := { name := "config" }
def proofFlag : Flag := { name := "proof", letter := some 'p' }
def depthFlag : Flag := { name := "depth", letter := some 'd' }

/-- The options of every statement. -/
def statementFlags : List Flag := [challengeFlag, bitsFlag, iterationsFlag, xFlag]

/-- Reads a discriminant. -/
def readGroup? (given : Given) : Option Group := do
  let challenge ← given.required? challengeFlag.name readBytes?
  let bits ← given.optional? bitsFlag.name readWord?
  return { challenge, bits := bits.getD 1024 }

/-- Reads a statement. -/
def readStatement? (given : Given) : Option Statement := do
  return { group := ← readGroup? given
           iterations := ← given.required? iterationsFlag.name readWord?
           x := ← given.optional? xFlag.name readBytes? }

/-- The options given, none of them twice. -/
def given? (flags : List Flag) (args : List String) : Option Given := do
  let given ← readGiven flags args
  if given.isSingle then some given else none

/-- **Reads a command line.** -/
def Command.read? : List String → Option Command
  | "--version" :: _ => some .version
  | "-V" :: _ => some .version
  | "create-discriminant" :: args => do
    return .createDiscriminant (← readGroup? (← given? [challengeFlag, bitsFlag] args))
  | "prove" :: args => do
    let given ← given? (statementFlags ++ [modeFlag, configFlag]) args
    let mode ← given.optional? modeFlag.name readMode?
    return .prove (← readStatement? given) (mode.getD .slow) (given.text? configFlag.name)
  | "prove-n-weso" :: args => do
    let given ← given? (statementFlags ++ [configFlag]) args
    return .proveSegmented (← readStatement? given) (given.text? configFlag.name)
  | "verify" :: args => do
    let given ← given? (statementFlags ++ [proofFlag]) args
    return .verify (← readStatement? given) (← given.required? proofFlag.name readBytes?) 0
  | "verify-n-weso" :: args => do
    let given ← given? (statementFlags ++ [proofFlag, depthFlag]) args
    return .verify (← readStatement? given) (← given.required? proofFlag.name readBytes?)
      (← given.required? depthFlag.name readWord?)
  | _ => none

/-! ## Carrying them out -/

/-- An answer about forms, as one to a command. -/
def ofForm {α : Type} : Except FormError α → Except CommandError α
  | .ok a => .ok a
  | .error e => .error (.form e)

/-- An answer about a run, as one to a command. -/
def ofDelay {α : Type} : Except DelayError α → Except CommandError α
  | .ok a => .ok a
  | .error e => .error (.delay e)

/-- The discriminant asked for. -/
def Group.discriminant (g : Group) : Except CommandError Discriminant :=
  ofForm (Discriminant.ofSeed g.challenge g.bits)

/-- The form a statement starts from. -/
def Statement.form (s : Statement) (d : Discriminant) : Except CommandError Form :=
  match s.x with
  | some bytes => ofForm (Form.decode d bytes)
  | none => .ok (Form.generator d)

/-- Settings from the text of a file, if one is named. -/
def loadSettings (o : Overflow) (readFile : String → Option String) (config : Option String) :
    Except CommandError Settings := do
  let settings ← match config with
    | none => .ok {}
    | some path =>
      match readFile path with
      | none => .error (.reading path)
      | some text =>
        match Settings.ofJson? text with
        | some settings => .ok settings
        | none => .error .malformedSettings
  ofDelay (settings.validate o)
  return settings

/-- A discriminant as text. -/
def showDiscriminant (d : Discriminant) : String :=
  "-0x" ++ String.ofList (Nat.toDigits 16 d.value.natAbs)

/-- Makes a proof in the way asked for. -/
def makeProof (o : Overflow) (d : Discriminant) (x : Form) (iterations : Nat) (s : Settings) :
    Mode → Except DelayError (List UInt8)
  | .slow => Alone.prove d x iterations
  | .one => do return (← Whole.prove o s d x iterations .absent).bytes
  | .two => do
    let run ← Thirds.start o s d x .absent
    return (← Thirds.prove (run.reach iterations) iterations).bytes

/-- Makes a proof of segments. -/
def makeSegmentedProof (o : Overflow) (d : Discriminant) (x : Form) (iterations : Nat)
    (s : Settings) : Except DelayError Proof := do
  let run ← Segmented.start o s d x .absent (some iterations)
  Segmented.prove o run.attend iterations

/-- **The line a command answers with.** -/
def Command.execute (o : Overflow) (readFile : String → Option String) :
    Command → Except CommandError String
  | .version => .ok "vdf 0.1"
  | .createDiscriminant group => do return showDiscriminant (← group.discriminant)
  | .prove statement mode config => do
    let d ← statement.group.discriminant
    let x ← statement.form d
    let settings ← loadSettings o readFile config
    return Hex.encode (← ofDelay (makeProof o d x statement.iterations settings mode))
  | .proveSegmented statement config => do
    let d ← statement.group.discriminant
    let x ← statement.form d
    let settings ← loadSettings o readFile config
    let proof ← ofDelay (makeSegmentedProof o d x statement.iterations settings)
    return toString proof.depth ++ " " ++ Hex.encode proof.bytes
  | .verify statement proof depth => do
    let d ← statement.group.discriminant
    let x ← ofForm ((← statement.form d).encode d)
    -- a proof that cannot be read is the fault of the proof, not of the form
    if ← ofDelay (ofFormResult (Verify.chain d x proof statement.iterations depth)) then
      return "ok"
    else .error .rejected

/-- The file that a command reads. -/
def Command.file? : Command → Option String
  | .prove _ _ config => config
  | .proveSegmented _ config => config
  | _ => none

/-- What carrying out a command leaves behind. -/
def Command.exit (o : Overflow) (readFile : String → Option String) (command : Command) : Exit :=
  match command.execute o readFile with
  | .ok line => { code := 0, output := line ++ "\n" }
  | .error e => { code := 1, message := some e.message }

/-- **The whole program**, in either build: what arguments lead to. -/
def run (o : Overflow) (readFile : String → Option String) (args : List String) : Exit :=
  match Command.read? args with
  | none => { code := 2 }
  | some command => command.exit o readFile

end Cli

end VerifiableDelay
