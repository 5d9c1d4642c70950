/-!
# Bytes of a formula

The classes of bytes that the lexical rules speak about.  Every class here is a
set of ASCII bytes, so no byte of a longer character belongs to any of them.

## Main definitions

* `Byte.doubleQuote`, `Byte.singleQuote`, `Byte.backslash` — three bytes with a
  name of their own.
* `Byte.isSpace`, `Byte.isDigit`, `Byte.isWord`, `Byte.isQuote`, `Byte.isSign`,
  `Byte.isOperator`, `Byte.isReference` — the classes.
* `Byte.lower` — an ASCII capital as its small letter.
-/

namespace PathFormula.Byte

/-- The byte of the double quote. -/
def doubleQuote : UInt8 := 0x22

/-- The byte of the single quote. -/
def singleQuote : UInt8 := 0x27

/-- The byte of the backslash. -/
def backslash : UInt8 := 0x5C

/-- The four bytes that may stand between lexemes: space, tab, line feed and
carriage return. -/
def isSpace (b : UInt8) : Bool :=
  match Char.ofUInt8 b with
  | ' ' | '\t' | '\n' | '\r' => true
  | _ => false

/-- A decimal digit. -/
def isDigit (b : UInt8) : Bool := 0x30 ≤ b && b ≤ 0x39

/-- A capital letter. -/
def isUpper (b : UInt8) : Bool := 0x41 ≤ b && b ≤ 0x5A

/-- A small letter. -/
def isLower (b : UInt8) : Bool := 0x61 ≤ b && b ≤ 0x7A

/-- A letter or a digit. -/
def isAlphanumeric (b : UInt8) : Bool := isDigit b || isUpper b || isLower b

/-- A byte of a bare word: a letter, a digit or the underscore. -/
def isWord (b : UInt8) : Bool := isAlphanumeric b || b == '_'.toUInt8

/-- Either kind of quote. -/
def isQuote (b : UInt8) : Bool := b == doubleQuote || b == singleQuote

/-- A sign, which begins a number or an operator. -/
def isSign (b : UInt8) : Bool :=
  match Char.ofUInt8 b with
  | '+' | '-' => true
  | _ => false

/-- A byte that an operator begins with. -/
def isOperator (b : UInt8) : Bool :=
  match Char.ofUInt8 b with
  | '!' | '*' | '/' | '%' | '<' | '>' | '&' | '|' | '^' | '+' | '-' | '=' => true
  | _ => false

/-- A byte that a path reference may hold outside brackets. -/
def isReference (b : UInt8) : Bool :=
  isAlphanumeric b ||
    match Char.ofUInt8 b with
    | '_' | '.' | '*' | '?' | '$' | '@' => true
    | _ => false

/-- An ASCII capital as its small letter; any other byte as it is. -/
def lower (b : UInt8) : UInt8 := if isUpper b then b + 0x20 else b

end PathFormula.Byte
