import PathFormula.Literal.ByteClass

/-!
# States of a literal

How far a number or a quoted string has come, and what each class of bytes does
to it.  Numbers and strings share the state before the first byte.

## Main definitions

* `State` — the states.
* `State.isNumeric`, `State.endsNumber` — the states of numbers, and those in
  which a number is complete.
* `Move` — what one byte does: it belongs to the literal, the literal was
  complete before it, or it may not stand there.
* `State.move` — the move from a state on a class.
-/

namespace PathFormula.Literal

/-- How far a literal has come. -/
inductive State where
  /-- Nothing has been read. -/
  | start
  /-- A leading minus. -/
  | minus
  /-- A single leading zero. -/
  | zero
  /-- Digits before a point. -/
  | integer
  /-- The point, with a digit still to come. -/
  | dot
  /-- Digits after the point. -/
  | fraction
  /-- The letter of an exponent. -/
  | exponent
  /-- The sign of an exponent. -/
  | exponentSign
  /-- Digits of an exponent. -/
  | exponentDigits
  /-- Inside a string. -/
  | string
  /-- After a backslash in a string. -/
  | escape
  /-- Four hexadecimal digits of an escape are to come. -/
  | unicode1
  /-- Three are to come. -/
  | unicode2
  /-- Two are to come. -/
  | unicode3
  /-- One is to come. -/
  | unicode4
  deriving DecidableEq, Repr

/-- What one byte does to a literal. -/
inductive Move where
  /-- The byte belongs to the literal. -/
  | next (state : State)
  /-- The literal is complete in front of the byte. -/
  | done
  /-- The byte may not stand here. -/
  | invalid
  deriving DecidableEq, Repr

namespace State

/-- Whether a number is complete in this state. -/
def endsNumber : State → Bool
  | zero | integer | fraction | exponentDigits => true
  | _ => false

/-- Whether the state is one of a number. -/
def isNumeric : State → Bool
  | start | minus | zero | integer | dot | fraction | exponent | exponentSign
  | exponentDigits => true
  | _ => false

/-- The move from a digit in front of the point. -/
def moveInInteger : ByteClass → Move
  | .zero | .digit => .next .integer
  | .point => .next .dot
  | .lowerE | .upperE => .next .exponent
  | .space | .white | .delimiter => .done
  | _ => .invalid

/-- The move where a hexadecimal digit is due, which leads to `after`. -/
def moveInUnicode (after : State) (c : ByteClass) : Move :=
  if c.isHex then .next after else .invalid

/-- What a byte of class `c` does in a state. -/
def move : State → ByteClass → Move
  | start, .minus => .next minus
  | start, .zero | minus, .zero => .next zero
  | start, .digit | minus, .digit => .next integer
  | start, .quote => .next string
  | start, _ | minus, _ => .invalid
  | zero, c | integer, c => moveInInteger c
  | dot, .zero | dot, .digit => .next fraction
  | dot, _ => .invalid
  | fraction, .zero | fraction, .digit => .next fraction
  | fraction, .lowerE | fraction, .upperE => .next exponent
  | fraction, .space | fraction, .white | fraction, .delimiter => .done
  | fraction, _ => .invalid
  | exponent, .plus | exponent, .minus => .next exponentSign
  | exponent, .zero | exponent, .digit => .next exponentDigits
  | exponent, _ => .invalid
  | exponentSign, .zero | exponentSign, .digit => .next exponentDigits
  | exponentSign, _ => .invalid
  | exponentDigits, .zero | exponentDigits, .digit => .next exponentDigits
  | exponentDigits, .space | exponentDigits, .white | exponentDigits, .delimiter => .done
  | exponentDigits, _ => .invalid
  | string, .quote => .done
  | string, .backslash => .next escape
  | string, .white => .invalid
  | string, _ => .next string
  | escape, .quote | escape, .backslash | escape, .slash => .next string
  | escape, .lowerB | escape, .lowerF | escape, .lowerN | escape, .lowerR | escape, .lowerT =>
    .next string
  | escape, .lowerU => .next unicode1
  | escape, _ => .invalid
  | unicode1, c => moveInUnicode unicode2 c
  | unicode2, c => moveInUnicode unicode3 c
  | unicode3, c => moveInUnicode unicode4 c
  | unicode4, c => moveInUnicode string c

/-- Nothing is complete where nothing has been read. -/
theorem move_start_ne_done : ∀ c, start.move c ≠ .done := by decide

end State

end PathFormula.Literal
