import PathFormula.Command

/-!
# The program

Reads the arguments and, where they hold no formula, the input, and writes what
the command answers.

## Main definitions

* `main` — the program.
-/

open PathFormula

/-- Hands a text to the output, telling a reader that has gone away from other
failures. -/
def PathFormula.Command.deliver (text : String) : IO (Except SinkFailure Unit) := do
  let stdout ← IO.getStdout
  try
    stdout.putStr text
    stdout.flush
    return .ok ()
  catch e =>
    match e with
    | .resourceVanished .. => return .error .brokenPipe
    | e => return .error (.other (toString e))

/-- The program.  Without a formula and with nobody to pipe one in it says how it
is used. -/
def main (args : List String) : IO UInt32 := do
  let stdin ← IO.getStdin
  let reads := Command.readsInput args
  let outcome ←
    if reads && (← stdin.isTty) then pure ⟨0, Command.helpText, ""⟩
    else
      let input ← if reads then stdin.readBinToEnd else pure ByteArray.empty
      pure (Command.run args input.data.toList)
  (← IO.getStderr).putStr outcome.stderr
  match TokenList.settle (← Command.deliver outcome.stdout) with
  | .ok () => return outcome.exitCode.toUInt32
  | .error message =>
    (← IO.getStderr).putStr ("Error: " ++ message ++ "\n")
    return 1
