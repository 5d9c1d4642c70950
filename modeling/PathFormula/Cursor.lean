import PathFormula.Byte
import PathFormula.Fault
import PathFormula.Text.Utf8

/-!
# A cursor over bytes

A cursor stands between two bytes of its input, or at one of its ends.  It holds
the bytes already passed, nearest first, and the bytes still to come; so it can
never stand outside the input, and moving it never changes the input.

## Main definitions

* `Cursor` — the passed bytes and the rest.
* `Cursor.input`, `Cursor.position` — what it stands in, and where.
* `Cursor.Outcome α` — what a recogniser answers: a value or a fault, and in
  both cases where the cursor was left.
* `Cursor.forward`, `Cursor.advance`, `Cursor.passWhile`, `Cursor.skipSpace`,
  `Cursor.moveTo` — the ways to move.
* `Cursor.isEscaped` — whether an odd run of backslashes ends at the cursor.
* `Cursor.seek set` — the first unescaped byte of a set.

## Main results

* `input_forward`, `input_passWhile`, `input_skipSpace`, `input_seek`,
  `input_moveTo` — moving leaves the input as it is.
-/

namespace PathFormula

/-- A place in a byte sequence. -/
structure Cursor where
  /-- The bytes before the cursor, nearest first. -/
  passed : List UInt8
  /-- The bytes from the cursor on. -/
  rest : List UInt8
  deriving DecidableEq, Repr

namespace Cursor

/-- The answer of a recogniser.  A refusal also says where the cursor stopped. -/
abbrev Outcome (α : Type) : Type := EStateM.Result Fault Cursor α

namespace Outcome

variable {α : Type}

/-- The cursor of an outcome, whether a value or a fault came with it. -/
def cursor : Outcome α → Cursor
  | .ok _ c => c
  | .error _ c => c

@[simp] theorem cursor_ok (a : α) (c : Cursor) : cursor (.ok a c) = c := rfl

@[simp] theorem cursor_error (f : Fault) (c : Cursor) :
    cursor (.error f c : Outcome α) = c := rfl

end Outcome

/-- The cursor in front of all of `bytes`. -/
def ofBytes (bytes : List UInt8) : Cursor := ⟨[], bytes⟩

/-- All bytes the cursor stands in. -/
def input (c : Cursor) : List UInt8 := c.passed.reverse ++ c.rest

/-- The number of bytes before the cursor. -/
def position (c : Cursor) : Nat := c.passed.length

/-- Whether no byte is left. -/
def isAtEnd (c : Cursor) : Bool := c.rest.isEmpty

/-- The byte at the cursor. -/
def current (c : Cursor) : Option UInt8 := c.rest.head?

/-- The byte after the one at the cursor. -/
def peek (c : Cursor) : Option UInt8 := c.rest.tail.head?

@[simp] theorem input_ofBytes (bytes : List UInt8) : (ofBytes bytes).input = bytes := rfl

@[simp] theorem position_ofBytes (bytes : List UInt8) : (ofBytes bytes).position = 0 := rfl

/-- Passing a byte leaves the input as it is. -/
theorem input_cons (passed rest : List UInt8) (b : UInt8) :
    input ⟨b :: passed, rest⟩ = input ⟨passed, b :: rest⟩ := by
  simp [input]

/-- The cursor never stands behind the end of its input. -/
theorem position_le_length (c : Cursor) : c.position ≤ c.input.length := by
  simp [input, position]

/-! ### Moving -/

/-- Passes `n` bytes of `rest`, or all of them if there are fewer. -/
def forwardFrom : Nat → List UInt8 → List UInt8 → Cursor
  | 0, passed, rest => ⟨passed, rest⟩
  | _ + 1, passed, [] => ⟨passed, []⟩
  | n + 1, passed, b :: rest => forwardFrom n (b :: passed) rest

/-- The cursor `n` bytes further on, or at the end if fewer are left. -/
def forward (n : Nat) (c : Cursor) : Cursor := forwardFrom n c.passed c.rest

/-- Steps onto the next byte and answers it.  The last byte has none after it,
so the cursor cannot leave it this way. -/
def advance (c : Cursor) : Option (UInt8 × Cursor) :=
  match c.rest with
  | b :: next :: rest => some (next, ⟨b :: c.passed, next :: rest⟩)
  | _ => none

/-- The cursor at the first byte from here on that does not belong to a class, or at
the end. -/
def passWhile (p : UInt8 → Bool) (c : Cursor) : Cursor :=
  ⟨(c.rest.takeWhile p).reverse ++ c.passed, c.rest.dropWhile p⟩

/-- The cursor at the first byte from here on that is not space, or at the end. -/
def skipSpace (c : Cursor) : Cursor := c.passWhile Byte.isSpace

/-- The cursor at a given offset of the same input, or at its end. -/
def moveTo (offset : Nat) (c : Cursor) : Cursor := (ofBytes c.input).forward offset

theorem input_forwardFrom (n : Nat) (passed rest : List UInt8) :
    (forwardFrom n passed rest).input = input ⟨passed, rest⟩ := by
  fun_induction forwardFrom n passed rest with
  | case1 => rfl
  | case2 => rfl
  | case3 n passed b rest ih => rw [ih, input_cons]

@[simp] theorem input_forward (n : Nat) (c : Cursor) : (c.forward n).input = c.input :=
  input_forwardFrom n c.passed c.rest

@[simp] theorem input_passWhile (p : UInt8 → Bool) (c : Cursor) :
    (c.passWhile p).input = c.input := by
  simp [passWhile, input, List.takeWhile_append_dropWhile]

@[simp] theorem input_skipSpace (c : Cursor) : c.skipSpace.input = c.input :=
  input_passWhile Byte.isSpace c

@[simp] theorem input_moveTo (offset : Nat) (c : Cursor) :
    (c.moveTo offset).input = c.input := by
  rw [moveTo, input_forward, input_ofBytes]

/-! ### Escapes

A byte is escaped when the run of backslashes that ends just before it is odd,
counted back to the start of the input. -/

/-- Whether the run of backslashes at the front of `passed` is odd. -/
def isEscapedAfter (passed : List UInt8) : Bool :=
  (passed.takeWhile (· == Byte.backslash)).length % 2 == 1

/-- Whether the byte at the cursor is escaped. -/
def isEscaped (c : Cursor) : Bool := isEscapedAfter c.passed

/-- Passes bytes of `rest` up to the first unescaped one of `set`. -/
def seekFrom (set : List UInt8) : List UInt8 → List UInt8 → Cursor
  | passed, [] => ⟨passed, []⟩
  | passed, b :: rest =>
    if set.contains b && !isEscapedAfter passed then ⟨passed, b :: rest⟩
    else seekFrom set (b :: passed) rest

/-- The cursor at the first unescaped byte of `set` from here on, or at the end
if there is none. -/
def seek (set : List UInt8) (c : Cursor) : Cursor := seekFrom set c.passed c.rest

/-- The position of a cursor that found what it was sent for, which a cursor at
the end did not. -/
def found? (c : Cursor) : Option Nat := if c.isAtEnd then none else some c.position

theorem input_seekFrom (set passed rest : List UInt8) :
    (seekFrom set passed rest).input = input ⟨passed, rest⟩ := by
  fun_induction seekFrom set passed rest with
  | case1 => rfl
  | case2 => rfl
  | case3 passed b rest _ ih => rw [ih, input_cons]

@[simp] theorem input_seek (set : List UInt8) (c : Cursor) : (c.seek set).input = c.input :=
  input_seekFrom set c.passed c.rest

/-! ### Reading off -/

/-- The text between an earlier offset and the cursor. -/
def textFrom (start : Nat) (c : Cursor) : String :=
  Utf8.text (c.passed.take (c.position - start)).reverse

/-- The fault of meeting the byte at the cursor, or the end, where it may not stand. -/
def symbolFault (c : Cursor) : Fault := .invalidSymbol c.position c.current

/-- The fault of the input ending too early.  It is placed at the end of the
input, wherever the cursor is. -/
def endFault (c : Cursor) : Fault := .endOfInput (c.position + c.rest.length)

end Cursor

end PathFormula
