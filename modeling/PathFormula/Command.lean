import PathFormula.Diagnostic
import PathFormula.Postfix.Compiler
import PathFormula.TokenList.Lexer
import PathFormula.TokenList.Listing

/-!
# The command line

The command takes one formula, from its arguments or from its input, and writes
its tokens or its postfix order.

## Main definitions

* `Command.Invocation` — what the arguments ask for.
* `Command.Request` — a run, or one of the two texts about the command.
* `Command.parse` — reads the arguments.
* `Command.Outcome` — what a run writes, and its exit code.
* `Command.Invocation.answer` — the outcome for a formula.
* `Command.run` — the outcome for arguments and an input.
-/

namespace PathFormula.Command

/-- What the arguments ask for. -/
structure Invocation where
  /-- The formula, unless it is to be read from the input. -/
  expression : Option String := none
  /-- Whether to put the formula into postfix order. -/
  inPostfix : Bool := false
  /-- Whether to write the tokens in one line. -/
  compact : Bool := false
  /-- Whether to write the number of tokens first. -/
  count : Bool := false
  deriving DecidableEq, Repr

/-- What the command is asked to do. -/
inductive Request where
  /-- To name its version. -/
  | version
  /-- To say how it is used. -/
  | help
  /-- To run. -/
  | run (invocation : Invocation)
  deriving DecidableEq, Repr

/-- What a run writes, and its exit code. -/
structure Outcome where
  /-- Zero for success. -/
  exitCode : Nat
  /-- What is written to the output. -/
  stdout : String
  /-- What is written about faults. -/
  stderr : String
  deriving DecidableEq, Repr

/-- The version text. -/
def versionText : String := "jpx 0.1.0\n"

/-- The text on how the command is used. -/
def helpText : String :=
  "Usage: jpx [OPTIONS] [EXPRESSION]\n\n" ++
  "Arguments:\n" ++
  "  [EXPRESSION]  Expression; if omitted, reads from STDIN\n\n" ++
  "Options:\n" ++
  "      --rpn      Print the postfix sequence instead of the flat token list\n" ++
  "      --compact  Print the tokens in one line\n" ++
  "      --count    Print the number of tokens first\n" ++
  "  -v, --verbose  Increase logging verbosity\n" ++
  "  -q, --quiet    Decrease logging verbosity\n" ++
  "  -h, --help     Print help\n" ++
  "  -V, --version  Print version\n"

/-! ### Arguments -/

/-- The text on an argument that cannot stand where it does. -/
def unexpected (arg : String) : String := "unexpected argument '" ++ arg ++ "' found"

/-- The text on an option given twice. -/
def repeated (option : String) : String :=
  "the argument '" ++ option ++ "' cannot be used multiple times"

/-- Takes the formula, of which there is at most one. -/
def Invocation.takeExpression (i : Invocation) (arg : String) : Except String Invocation :=
  match i.expression with
  | none => .ok { i with expression := some arg }
  | some _ => .error (unexpected arg)

/-- Takes a long option that asks for something in a run.  The verbosity options
have nothing to say about what a run writes. -/
def Invocation.takeLong (i : Invocation) (arg : String) : Except String Invocation :=
  match arg with
  | "--rpn" => if i.inPostfix then .error (repeated arg) else .ok { i with inPostfix := true }
  | "--compact" => if i.compact then .error (repeated arg) else .ok { i with compact := true }
  | "--count" => if i.count then .error (repeated arg) else .ok { i with count := true }
  | "--quiet" | "--verbose" => .ok i
  | _ => .error (unexpected arg)

/-- Takes the letters of a short option.  The first that asks for a text about the
command decides. -/
def takeShort (arg : String) : List Char → Except String (Option Request)
  | [] => .ok none
  | 'V' :: _ => .ok (some .version)
  | 'h' :: _ => .ok (some .help)
  | 'q' :: rest => takeShort arg rest
  | 'v' :: rest => takeShort arg rest
  | _ => .error (unexpected arg)

/-- Takes arguments that are formulas whatever they look like. -/
def parseOperands (i : Invocation) : List String → Except String Invocation
  | [] => .ok i
  | arg :: rest =>
    match i.takeExpression arg with
    | .ok i => parseOperands i rest
    | .error message => .error message

/-- Takes the arguments in order. -/
def parseFrom (i : Invocation) : List String → Except String Request
  | [] => .ok (.run i)
  | arg :: rest =>
    match arg.toList with
    | ['-', '-'] => (parseOperands i rest).map Request.run
    | '-' :: '-' :: _ =>
      if arg = "--version" then .ok .version
      else if arg = "--help" then .ok .help
      else
        match i.takeLong arg with
        | .ok i => parseFrom i rest
        | .error message => .error message
    | '-' :: c :: letters =>
      match takeShort arg (c :: letters) with
      | .ok none => parseFrom i rest
      | .ok (some request) => .ok request
      | .error message => .error message
    | _ =>
      match i.takeExpression arg with
      | .ok i => parseFrom i rest
      | .error message => .error message

/-- What the arguments ask for, or what is wrong with them. -/
def parse (args : List String) : Except String Request := parseFrom {} args

/-- Whether the arguments leave the formula to the input. -/
def readsInput (args : List String) : Bool :=
  match parse args with
  | .ok (.run i) => i.expression.isNone
  | _ => false

/-! ### Running -/

/-- A text without the line feeds and carriage returns at its end. -/
def trimLineEnds (s : String) : String :=
  String.ofList (s.toList.reverse.dropWhile fun c => c == '\n' || c == '\r').reverse

/-- How a failed run reports what it was doing and why that failed. -/
def report (doing cause : String) : String :=
  "Error: " ++ doing ++ "\n\nCaused by:\n    " ++ cause ++ "\n"

/-- The tokens asked for. -/
def Invocation.tokens (i : Invocation) (s : String) : Except Fault TokenList :=
  if i.inPostfix then (Postfix.ofFormula .standard s).map Postfix.toTokens
  else TokenList.ofFormula s

/-- What a run was doing when it met a fault. -/
def Invocation.task (i : Invocation) : String :=
  if i.inPostfix then "Failed to compile expression" else "Failed to tokenize expression"

/-- The outcome for a formula. -/
def Invocation.answer (i : Invocation) (s : String) : Outcome :=
  match i.tokens s with
  | .ok ts =>
    let total := if i.count then s!"Found tokens: {ts.size}\n" else ""
    ⟨0, total ++ ts.listing (if i.compact then .compact else .spread), ""⟩
  | .error fault =>
    ⟨1, "", Diagnostic.render false s fault ++ report i.task fault.message⟩

/-- The outcome for an input, which has to be text. -/
def Invocation.answerInput (i : Invocation) (input : List UInt8) : Outcome :=
  match String.fromUTF8? input.toByteArray with
  | some s => i.answer (trimLineEnds s)
  | none =>
    ⟨1, "", report "Failed to read expression from STDIN" "stream did not contain valid UTF-8"⟩

/-- The outcome for arguments that cannot be understood. -/
def misuse (message : String) : Outcome :=
  ⟨2, "", "error: " ++ message ++ "\n\nUsage: jpx [OPTIONS] [EXPRESSION]\n\n" ++
    "For more information, try '--help'.\n"⟩

/-- The outcome for arguments and an input. -/
def run (args : List String) (input : List UInt8) : Outcome :=
  match parse args with
  | .error message => misuse message
  | .ok .version => ⟨0, versionText, ""⟩
  | .ok .help => ⟨0, helpText, ""⟩
  | .ok (.run i) =>
    match i.expression with
    | some s => i.answer s
    | none => i.answerInput input

end PathFormula.Command
