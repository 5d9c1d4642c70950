import PathFormula.Text.Hex

/-!
# Faults

What can be wrong with a formula, and how it is said.  Offsets count bytes from
the start of the text that the fault is about.

## Main definitions

* `Fault` — the causes.
* `Fault.offset?` — the place of a fault, if it has one.
* `Fault.shift n` — the same fault in a text with `n` more bytes in front.
* `Fault.message` — the wording.
-/

namespace PathFormula

/-- Why a text is no formula, or no literal. -/
inductive Fault where
  /-- The text ends inside a string or a nesting, or holds nothing at all. -/
  | endOfInput (offset : Nat)
  /-- A byte, or the end of the text when there is no byte, stands where it may not. -/
  | invalidSymbol (offset : Nat) (byte : Option UInt8)
  /-- A parenthesis or bracket has no partner. -/
  | unbalancedParens (offset : Nat)
  /-- A word that is called names no function. -/
  | unknownFunction (name : String) (offset : Nat)
  /-- A word that is not called names no constant. -/
  | unknownConstant (name : String) (offset : Nat)
  /-- A unit was ordered like an operator and is none. -/
  | malformedFormula (entry : String)
  deriving DecidableEq, Repr

namespace Fault

/-- The place of a fault.  Only a malformed formula has none. -/
def offset? : Fault → Option Nat
  | endOfInput offset => some offset
  | invalidSymbol offset _ => some offset
  | unbalancedParens offset => some offset
  | unknownFunction _ offset => some offset
  | unknownConstant _ offset => some offset
  | malformedFormula _ => none

/-- The fault as it stands when `n` bytes are put in front of the text. -/
def shift (n : Nat) : Fault → Fault
  | endOfInput offset => endOfInput (n + offset)
  | invalidSymbol offset byte => invalidSymbol (n + offset) byte
  | unbalancedParens offset => unbalancedParens (n + offset)
  | unknownFunction name offset => unknownFunction name (n + offset)
  | unknownConstant name offset => unknownConstant name (n + offset)
  | malformedFormula entry => malformedFormula entry

@[simp] theorem offset?_shift (n : Nat) (f : Fault) :
    (f.shift n).offset? = f.offset?.map (n + ·) := by cases f <;> rfl

@[simp] theorem shift_zero (f : Fault) : f.shift 0 = f := by cases f <;> simp [shift]

theorem shift_shift (m n : Nat) (f : Fault) : (f.shift n).shift m = f.shift (m + n) := by
  cases f <;> simp [shift, Nat.add_assoc]

/-- How a message names a byte: a visible ASCII byte in quotes, any other by its
two hexadecimal digits, and the lack of one as the end of the input. -/
def describe : Option UInt8 → String
  | some b =>
    if 0x21 ≤ b && b ≤ 0x7E then "'" ++ String.singleton (Char.ofUInt8 b) ++ "'"
    else "0x" ++ String.ofList (Hex.pair b)
  | none => "<end of input>"

/-- The wording of a fault. -/
def message : Fault → String
  | endOfInput offset => s!"unexpected end of input at offset {offset}"
  | invalidSymbol offset byte =>
    "invalid symbol " ++ describe byte ++ s!" at offset {offset}"
  | unbalancedParens offset => s!"unbalanced parentheses at offset {offset}"
  | unknownFunction name offset =>
    "wrong formula, '" ++ name ++ s!"' is not a function (offset {offset})"
  | unknownConstant name offset =>
    "wrong formula, '" ++ name ++ s!"' is not a constant (offset {offset})"
  | malformedFormula entry =>
    "wrong formula, '" ++ entry ++ "' is not an operation or function"

end Fault

end PathFormula
