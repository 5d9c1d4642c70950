import PathFormula.Byte
import PathFormula.Fault
import PathFormula.Text.Hex
import PathFormula.Text.Utf16
import PathFormula.Text.Utf8

/-!
# Quoted text

A text in quotes, with escapes for the characters that cannot stand between
them.  It is decoded in one pass: a character stands for itself, a backslash with a
letter for another one, and four hexadecimal digits after `\u` for a UTF-16 unit.  A
high surrogate looks ahead for the escape of a low one, and takes it along.

## Main definitions

* `Quoted.digits?`, `Quoted.low?` — what four digits write, and the escape of a low
  surrogate.
* `Quoted.decodeUnit` — the character of a unit.
* `Quoted.decodeFrom` — the characters of a body.
* `Quoted.decode` — takes the quotes off a text and resolves its escapes.
* `Quoted.plain` — the same for a text that may also stand without quotes.
* `Quoted.encode` — puts a text in quotes.
-/

namespace PathFormula.Quoted

/-- What a letter after a backslash stands for.  Both quotes may be escaped,
whichever of them is the border. -/
def escaped? : Char → Option Char
  | '"' => some '"'
  | '\'' => some '\''
  | '\\' => some '\\'
  | '/' => some '/'
  | 'b' => some '\x08'
  | 'f' => some '\x0c'
  | 'n' => some '\n'
  | 'r' => some '\r'
  | 't' => some '\t'
  | _ => none

/-- The number that the four characters at the front write, if they are digits. -/
def digits? : List Char → Option Nat
  | a :: b :: c :: d :: _ => Hex.four? a b c d
  | _ => none

/-- The low surrogate that an escape at the front stands for. -/
def low? : List Char → Option Nat
  | '\\' :: 'u' :: rest => (digits? rest).filter Utf16.isLow
  | _ => none

/-- The character of a unit, and how many of the characters that follow it takes: a high
surrogate takes the escape of a low one. -/
def decodeUnit (u : Nat) (rest : List Char) : Char × Nat :=
  if Utf16.isHigh u then
    match low? rest with
    | some w => (Utf16.join u w, 6)
    | none => ('\ufffd', 0)
  else (Utf16.single u, 0)

/-- Decodes on in a body at an offset.  The characters already decoded stand in reverse.
A backslash begins an escape even where it is the border; with nothing after it, or
without its digits, it is itself at fault, and an unknown letter after it is at fault one
byte later. -/
def decodeFrom (border : UInt8) (offset : Nat) (out : List Char) :
    List Char → Except Nat (List Char)
  | [] => .ok out.reverse
  | c :: rest =>
    if c = '\\' then
      match rest with
      | [] => .error offset
      | 'u' :: rest =>
        match digits? rest with
        | some u =>
          let (c, more) := decodeUnit u (rest.drop 4)
          decodeFrom border (offset + 6 + more) (c :: out) (rest.drop (4 + more))
        | none => .error offset
      | e :: rest =>
        match escaped? e with
        | some c => decodeFrom border (offset + 2) (c :: out) rest
        | none => .error (offset + 1)
    else if c.toNat = border.toNat ∨ c < ' ' then .error offset
    else decodeFrom border (offset + (Utf8.encode [c]).length) (c :: out) rest
termination_by cs => cs.length

/-- Takes the borders off a text and resolves the escapes between them.  The text
has to be at least two bytes long and to begin and end with the border.  Offsets count
from the border in front. -/
def decode (border : UInt8) (s : String) : Except Fault String :=
  let bytes := Utf8.bytes s
  if bytes.length < 2 ∨ bytes.head? ≠ some border ∨ bytes.getLast? ≠ some border then
    .error (.invalidSymbol 0 bytes.head?)
  else
    match decodeFrom border 1 [] s.toList.tail.dropLast with
    | .ok cs => .ok (String.ofList cs)
    | .error offset => .error (.invalidSymbol offset bytes[offset]?)

/-- What a key stands for: itself, or what it has between its quotes. -/
inductive Plain where
  /-- A key without quotes stands for itself. -/
  | verbatim (key : String)
  /-- A key in quotes stands for the text they hold. -/
  | decoded (value : String)
  deriving DecidableEq, Repr

/-- The text a key stands for. -/
def Plain.value : Plain → String
  | verbatim key => key
  | decoded value => value

/-- Takes off a pair of equal quotes around a key, if it has one. -/
def plain (key : String) : Except Fault Plain :=
  let bytes := Utf8.bytes key
  match bytes with
  | first :: _ :: _ =>
    if Byte.isQuote first ∧ bytes.getLast? = some first then
      (decode first key).map Plain.decoded
    else .ok (.verbatim key)
  | _ => .ok (.verbatim key)

/-- A character as it is written between two delimiters. -/
def encodeChar (delimiter c : Char) : List Char :=
  if c = '\\' ∨ c = delimiter then ['\\', c]
  else if c = '\x08' then ['\\', 'b']
  else if c = '\x0c' then ['\\', 'f']
  else if c = '\n' then ['\\', 'n']
  else if c = '\r' then ['\\', 'r']
  else if c = '\t' then ['\\', 't']
  else if c < ' ' then ['\\', 'u', '0', '0', Hex.digit (c.toNat / 16), Hex.digit c.toNat]
  else [c]

/-- A text between two delimiters.  The delimiter, the backslash and the control
characters are escaped, and all else stands as it is. -/
def encode (delimiter : Char) (s : String) : String :=
  String.ofList (delimiter :: (s.toList.flatMap (encodeChar delimiter) ++ [delimiter]))

end PathFormula.Quoted
