import PathFormula.Byte

/-!
# Operators

The operators of a formula, their symbols, how tightly they bind, and how they
group.

## Main definitions

* `Operator` — the operators.
* `Operator.symbol`, `Operator.ofSymbol?` — to text and back.
* `Operator.tier` — a higher tier binds tighter.
* `Operator.isRightAssociative`, `Operator.isPostfix` — how one groups.
* `Mark` — what can stand where an operator is read: an operator, or the equals
  sign, which is written like one and is none.
* `Mark.read` — reads the longest mark.
-/

namespace PathFormula

/-- An operator of a formula. -/
inductive Operator where
  /-- `!`, after its operand. -/
  | factorial
  /-- `**` -/
  | power
  /-- `*` -/
  | times
  /-- `/` -/
  | divide
  /-- `%` -/
  | modulo
  /-- `<<` -/
  | shiftLeft
  /-- `>>` -/
  | shiftRight
  /-- `&` -/
  | bitAnd
  /-- `&^` -/
  | bitClear
  /-- `+` -/
  | plus
  /-- `-` -/
  | minus
  /-- `|` -/
  | bitOr
  /-- `^` -/
  | bitXor
  /-- `==` -/
  | equal
  /-- `!=` -/
  | notEqual
  /-- `<` -/
  | less
  /-- `<=` -/
  | lessEqual
  /-- `>` -/
  | greater
  /-- `>=` -/
  | greaterEqual
  /-- `=~` -/
  | matching
  /-- `&&` -/
  | both
  /-- `||` -/
  | either
  deriving DecidableEq, Repr

namespace Operator

/-- Every operator, tightest first. -/
def all : List Operator :=
  [factorial, power, times, divide, modulo, shiftLeft, shiftRight, bitAnd, bitClear, plus, minus,
    bitOr, bitXor, equal, notEqual, less, lessEqual, greater, greaterEqual, matching, both, either]

theorem mem_all (op : Operator) : op ∈ all := by cases op <;> decide

/-- The characters of an operator. -/
def chars : Operator → List Char
  | factorial => ['!']
  | power => ['*', '*']
  | times => ['*']
  | divide => ['/']
  | modulo => ['%']
  | shiftLeft => ['<', '<']
  | shiftRight => ['>', '>']
  | bitAnd => ['&']
  | bitClear => ['&', '^']
  | plus => ['+']
  | minus => ['-']
  | bitOr => ['|']
  | bitXor => ['^']
  | equal => ['=', '=']
  | notEqual => ['!', '=']
  | less => ['<']
  | lessEqual => ['<', '=']
  | greater => ['>']
  | greaterEqual => ['>', '=']
  | matching => ['=', '~']
  | both => ['&', '&']
  | either => ['|', '|']

/-- The text of an operator. -/
def symbol (op : Operator) : String := String.ofList op.chars

/-- The bytes of an operator. -/
def bytes (op : Operator) : List UInt8 := op.chars.map Char.toUInt8

/-- The operator with a given text. -/
def ofSymbol? (s : String) : Option Operator := all.find? (·.symbol == s)

/-- The operator with the given bytes. -/
def ofBytes? (bs : List UInt8) : Option Operator := all.find? (·.bytes == bs)

/-- How tightly an operator binds. -/
def tier : Operator → Nat
  | factorial => 7
  | power => 6
  | times | divide | modulo | shiftLeft | shiftRight | bitAnd | bitClear => 5
  | plus | minus | bitOr | bitXor => 4
  | equal | notEqual | less | lessEqual | greater | greaterEqual | matching => 3
  | both => 2
  | either => 1

/-- Whether equal operators in a row group from the right.  Only powers do. -/
def isRightAssociative (op : Operator) : Bool := op == power

/-- Whether an operator stands after its only operand. -/
def isPostfix (op : Operator) : Bool := op == factorial

end Operator

/-- What is written like an operator: an operator, or the single equals sign. -/
inductive Mark where
  /-- An operator. -/
  | operator (op : Operator)
  /-- A single `=`, which no formula may hold. -/
  | equals
  deriving DecidableEq, Repr

namespace Mark

/-- The bytes of a mark. -/
def bytes : Mark → List UInt8
  | operator op => op.bytes
  | equals => ['='.toUInt8]

/-- The text of a mark. -/
def symbol : Mark → String
  | operator op => op.symbol
  | equals => "="

/-- Whether a mark leaves an operand behind rather than asking for one. -/
def isPostfix : Mark → Bool
  | operator op => op.isPostfix
  | equals => false

/-- The mark of a single operator byte.  Of these bytes only `=` is no operator
by itself. -/
def ofByte (b : UInt8) : Mark :=
  match Operator.ofBytes? [b] with
  | some op => operator op
  | none => equals

/-- Reads the mark that begins with the operator byte `b`: two bytes if they
are an operator, and one otherwise. -/
def read (b : UInt8) (rest : List UInt8) : Mark × List UInt8 :=
  match rest with
  | [] => (ofByte b, [])
  | b' :: more =>
    match Operator.ofBytes? [b, b'] with
    | some op => (operator op, more)
    | none => (ofByte b, rest)

/-- A mark takes nothing away but its own bytes. -/
theorem length_read_le (b : UInt8) (rest : List UInt8) : (read b rest).2.length ≤ rest.length := by
  unfold read
  split
  · simp
  · split <;> simp

end Mark

end PathFormula
