import PathFormula.Text.Quoted
import PathFormula.TokenList

/-!
# Listing tokens

A token list is written as a JSON array of strings, in one line or with a token
to a line, and is handed to a sink that may fail.

## Main definitions

* `Layout` — in one line, or a token to a line.
* `TokenList.json` — the array.
* `TokenList.listing` — the array with its final line feed.
* `SinkFailure` — how a sink can fail.
* `TokenList.settle` — what a failure means to the writer of a listing.
-/

namespace PathFormula

/-- How an array is laid out. -/
inductive Layout where
  /-- In one line. -/
  | compact
  /-- A token to a line, indented by two spaces. -/
  | spread
  deriving DecidableEq, Repr

/-- How a sink can fail. -/
inductive SinkFailure where
  /-- Its reader has gone away. -/
  | brokenPipe
  /-- Anything else, as the sink says it. -/
  | other (message : String)
  deriving DecidableEq, Repr

namespace TokenList

/-- The tokens as JSON strings. -/
def jsonStrings (ts : TokenList) : List String := ts.tokens.map (Quoted.encode '"')

/-- The tokens as a JSON array. -/
def json (layout : Layout) (ts : TokenList) : String :=
  match layout, ts.isEmpty with
  | .compact, _ => "[" ++ ",".intercalate ts.jsonStrings ++ "]"
  | .spread, true => "[]"
  | .spread, false => "[\n  " ++ ",\n  ".intercalate ts.jsonStrings ++ "\n]"

/-- The tokens as they are written out. -/
def listing (layout : Layout) (ts : TokenList) : String := ts.json layout ++ "\n"

/-- What the answer of a sink means to the writer of a listing.  A reader that has
gone away has read all it wanted, so a broken pipe is no failure. -/
def settle : Except SinkFailure Unit → Except String Unit
  | .ok () => .ok ()
  | .error .brokenPipe => .ok ()
  | .error (.other message) => .error ("write tokens to stdout: " ++ message)

end TokenList

end PathFormula
