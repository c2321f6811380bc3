import VerifiableDelay.Cli.Command
/-!
# The program

Reads the one file a command may name, and prints what the command leaves
behind.
-/

open VerifiableDelay

/-- The text of a file, if it can be read. -/
def readText (path : String) : IO (Option String) := do
  try
    return some (← IO.FS.readFile path)
  catch _ =>
    return none

/-- The command line. -/
def main (args : List String) : IO UInt32 := do
  let text ← match (Cli.Command.read? args).bind (·.file?) with
    | some path => readText path
    | none => pure none
  let exit := Cli.run .stops (fun _ => text) args
  IO.print exit.output
  if let some message := exit.message then
    IO.eprintln message
  return UInt32.ofNat exit.code
