import PathFormula.Operator
import PathFormula.Text.Utf8

/-!
# Lexemes

The units a formula is made of, each with the bytes it was written with.

## Main definitions

* `Lexeme` — the units.
* `Lexeme.bytes` — the bytes of a unit, as written.
* `Lexeme.text` — the text of a unit.  A word is in lower case, and every other
  unit is as written.
* `Lexeme.endsOperand` — whether an operand ends with the unit, so that a sign
  after it is an operator.
-/

namespace PathFormula

/-- A unit of a formula. -/
inductive Lexeme where
  /-- An operator, or the single equals sign. -/
  | operator (mark : Mark)
  /-- A number. -/
  | number (bytes : List UInt8)
  /-- A string with its quotes. -/
  | quoted (bytes : List UInt8)
  /-- A path reference. -/
  | reference (bytes : List UInt8)
  /-- An opening parenthesis. -/
  | openParen
  /-- A closing parenthesis. -/
  | closeParen
  /-- A point that begins no number. -/
  | dot
  /-- A bare word, and whether an opening parenthesis follows it directly. -/
  | word (bytes : List UInt8) (call : Bool)
  /-- Any other character: its first byte, and the bytes that continue it. -/
  | symbol (first : UInt8) (more : List UInt8)
  deriving DecidableEq, Repr

namespace Lexeme

/-- The bytes a unit was written with. -/
def bytes : Lexeme → List UInt8
  | operator mark => mark.bytes
  | number bytes => bytes
  | quoted bytes => bytes
  | reference bytes => bytes
  | openParen => ['('.toUInt8]
  | closeParen => [')'.toUInt8]
  | dot => ['.'.toUInt8]
  | word bytes _ => bytes
  | symbol first more => first :: more

/-- The text of a bare word: its letters do not tell the cases apart. -/
def wordText (bytes : List UInt8) : String := Utf8.text (bytes.map Byte.lower)

/-- The text of a unit. -/
def text : Lexeme → String
  | operator mark => mark.symbol
  | number bytes => Utf8.text bytes
  | quoted bytes => Utf8.text bytes
  | reference bytes => Utf8.text bytes
  | openParen => "("
  | closeParen => ")"
  | dot => "."
  | word bytes _ => wordText bytes
  | symbol first more => Utf8.text (first :: more)

/-- Whether an operand ends with the unit.  A called word has its operand still
to come, and of the other characters only a closing bracket or brace ends one. -/
def endsOperand : Lexeme → Bool
  | operator mark => mark.isPostfix
  | number _ => true
  | quoted _ => true
  | reference _ => true
  | openParen => false
  | closeParen => true
  | dot => true
  | word _ call => !call
  | symbol first _ => first == ']'.toUInt8 || first == '}'.toUInt8

end Lexeme

end PathFormula
