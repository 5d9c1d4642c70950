import PathFormula.Fault

/-!
# Diagnostics

A fault is shown by its message, the line of the input it is in, and a caret
under the character it points at.

## Main definitions

* `Place` — a place in a line: what stands in the line before it and after it.
* `Place.locate` — the place of a byte offset in a text.
* `Style`, `Style.paint` — the styles of a terminal, put on or left off.
* `Diagnostic.render` — the lines that show a fault.
-/

namespace PathFormula

/-- A place in a line of text. -/
structure Place where
  /-- The characters of the line before the place. -/
  before : List Char
  /-- The characters of the line from the place on. -/
  after : List Char
  deriving DecidableEq, Repr

namespace Place

/-- The whole line. -/
def line (p : Place) : String := String.ofList (p.before ++ p.after)

/-- The number of characters in front of the place. -/
def column (p : Place) : Nat := p.before.length

/-- Passes characters of `rest` as long as they end within the next `n` bytes.
Those passed stand in reverse. -/
def splitFrom : Nat → List Char → List Char → List Char × List Char
  | _, passed, [] => (passed, [])
  | n, passed, c :: rest =>
    if c.utf8Size ≤ n then splitFrom (n - c.utf8Size) (c :: passed) rest
    else (passed, c :: rest)

/-- The place of a byte offset in its line.  An offset inside a character counts
as the one in front of it, and an offset behind the text as its end. -/
def locate (s : String) (offset : Nat) : Place :=
  let (passed, rest) := splitFrom offset [] s.toList
  ⟨(passed.takeWhile (· != '\n')).reverse, rest.takeWhile (· != '\n')⟩

end Place

/-- How a part of a diagnostic stands out on a terminal. -/
inductive Style where
  /-- Bold red. -/
  | alarm
  /-- Dimmed. -/
  | faint
  deriving DecidableEq, Repr

namespace Style

/-- The characters that switch a style on. -/
def begin : Style → List Char
  | alarm => ['\x1b', '[', '1', ';', '3', '1', 'm']
  | faint => ['\x1b', '[', '2', 'm']

/-- The characters that switch all styles off. -/
def reset : List Char := ['\x1b', '[', '0', 'm']

/-- Switches a style on again wherever a text has switched it off. -/
def renewOnto (style : Style) (done : List Char) : List Char → List Char
  | '\x1b' :: '[' :: '0' :: 'm' :: rest =>
    renewOnto style (style.begin.reverse ++ (reset.reverse ++ done)) rest
  | c :: rest => renewOnto style (c :: done) rest
  | [] => done.reverse

/-- A text in a style, or as it is where there are no colours. -/
def paint (style : Style) (color : Bool) (s : String) : String :=
  if color then String.ofList (style.begin ++ renewOnto style [] s.toList ++ reset) else s

end Style

namespace Diagnostic

/-- The line with the message. -/
def headline (color : Bool) (fault : Fault) : String :=
  Style.alarm.paint color "error:" ++ " " ++ fault.message ++ "\n"

/-- The line of the input and the line with the caret. -/
def excerpt (color : Bool) (p : Place) : String :=
  "  " ++ Style.faint.paint color p.line ++ "\n" ++
    "  " ++ String.ofList (List.replicate p.column ' ') ++ Style.alarm.paint color "^" ++ "\n"

/-- The lines that show a fault of a text.  A fault without a place has only its
message to show. -/
def render (color : Bool) (s : String) (fault : Fault) : String :=
  match fault.offset? with
  | none => headline color fault
  | some offset => headline color fault ++ excerpt color (Place.locate s offset)

end Diagnostic

end PathFormula
