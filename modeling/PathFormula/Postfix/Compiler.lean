import PathFormula.Lexeme.Scanner
import PathFormula.Postfix.Builder

/-!
# The postfix order of a formula

A compiler goes over the formula once, as the lexer does, but it looks words up, and puts
what it takes on the output or on the stack at once.  It decides by itself what a byte
begins, and more strictly than the lexer: no operator may stand without an operand in front
of it, no point by itself, and no character that is not part of anything else.

The compiler moves the cursor and notes whether an operand has just ended.  What it does to
the stack and the output is what a builder does.

## Main definitions

* `Compiler` — a cursor, the stack, the output, and whether an operand has just ended.
* `Compiler.builder`, `Compiler.goOn` — what a builder sees of it, and how it goes on.
* `Compiler.step` — takes the unit that begins with a given byte at the cursor.
* `Compiler.run`, `Compiler.finish` — all units, and the end.
* `Postfix.ofFormula` — a formula in postfix order, or its first fault.
-/

namespace PathFormula

/-- A formula on its way to postfix order. -/
structure Compiler where
  /-- Where the compiler stands. -/
  cursor : Cursor
  /-- What waits, the top first. -/
  stack : List Pending
  /-- What has been released, the newest first. -/
  output : List Entry
  /-- Whether an operand has just ended. -/
  afterOperand : Bool
  deriving DecidableEq, Repr

namespace Compiler

/-- The compiler in front of all of `bytes`. -/
def start (bytes : List UInt8) : Compiler := ⟨.ofBytes bytes, [], [], false⟩

/-- The stack and the output, as a builder has them. -/
def builder (c : Compiler) : Builder := ⟨c.cursor.position, c.stack, c.output, c.afterOperand⟩

/-- The compiler with the stack and the output of a builder, behind what it has read. -/
def goOn (after : Cursor) (afterOperand : Bool) (b : Builder) : Compiler :=
  ⟨after, b.stack, b.output, afterOperand⟩

/-- Puts out the operand that a recogniser has passed over from the cursor on. -/
def operand {α : Type} (c : Compiler) : Cursor.Outcome α → Except Fault Compiler
  | .ok _ after => .ok (goOn after true (c.builder.emit (after.textFrom c.cursor.position)))
  | .error fault _ => .error fault

/-- Takes a bare word.  A function waits for its argument, and a constant is an operand.
Where there is no word, the byte at the cursor may not stand. -/
def word (v : Vocabulary) (c : Compiler) : Except Fault Compiler :=
  let (word, after) := c.cursor.readWord
  if word.text = "" then .error after.symbolFault
  else if word.call then
    if v.isFunction word.text then .ok (goOn after false (c.builder.push (.function word.text)))
    else .error (.unknownFunction word.text word.offset)
  else if v.isConstant word.text then .ok (goOn after true (c.builder.emit word.text))
  else .error (.unknownConstant word.text word.offset)

/-- Takes the unit that begins with the byte `b` at the cursor. -/
def step (v : Vocabulary) (c : Compiler) (b : UInt8) : Except Fault Compiler :=
  let here := c.cursor
  if Byte.isOperator b && c.afterOperand then
    let (mark, after) := here.readMark b
    (c.builder.pushOperator mark).map (goOn after mark.isPostfix)
  else if Byte.isOperator b && !Byte.isSign b then .error here.symbolFault
  else if Byte.isSign b || Byte.isDigit b || b == '.'.toUInt8 then c.operand (here.readNumber none)
  else if Byte.isQuote b then c.operand (here.readString b none)
  else if b == '$'.toUInt8 || b == '@'.toUInt8 then c.operand here.readReference
  else if b == '('.toUInt8 then
    .ok (goOn (here.forward 1) false (c.builder.push (.openParen here.position)))
  else if b == ')'.toUInt8 then
    (c.builder.closeParen here.position).map (goOn (here.forward 1) true)
  else c.word v

/-! ### A unit takes at least one byte -/

variable {v : Vocabulary} {c c' : Compiler} {b : UInt8}

theorem cursor_of_map_goOn {outcome : Except Fault Builder} {after : Cursor} {afterOperand : Bool}
    (h : outcome.map (goOn after afterOperand) = .ok c') : c'.cursor = after := by
  cases outcome with
  | ok b => cases h; rfl
  | error fault => cases h

theorem length_rest_operand {α : Type} {outcome : Cursor.Outcome α}
    (hlt : ∀ a after, outcome = .ok a after → after.rest.length < c.cursor.rest.length)
    (h : c.operand outcome = .ok c') : c'.cursor.rest.length < c.cursor.rest.length := by
  cases outcome with
  | ok a after =>
    have hafter := hlt a after rfl
    cases h
    exact hafter
  | error fault after => cases h

theorem length_rest_word (h : c.word v = .ok c') :
    c'.cursor.rest.length < c.cursor.rest.length := by
  unfold word at h
  split at h
  next word after hread =>
  split at h
  · cases h
  next hword =>
    have hlt : c.cursor.readWord.2.rest.length < c.cursor.rest.length :=
      Cursor.length_rest_readWord (by rwa [hread])
    rw [hread] at hlt
    split at h
    · split at h
      · cases h
        exact hlt
      · cases h
    · split at h
      · cases h
        exact hlt
      · cases h

/-- A unit takes at least one byte. -/
theorem length_rest_step (hc : c.cursor.current = some b) (h : c.step v b = .ok c') :
    c'.cursor.rest.length < c.cursor.rest.length := by
  have hforward : (c.cursor.forward 1).rest.length < c.cursor.rest.length := by
    have hpos := Cursor.length_rest_pos hc
    rw [Cursor.length_rest_forward]
    omega
  unfold step at h
  dsimp only at h
  split at h
  · rw [cursor_of_map_goOn h]
    exact Cursor.length_rest_readMark hc
  split at h
  · cases h
  split at h
  · exact length_rest_operand (fun _ _ => Cursor.length_rest_readNumber) h
  split at h
  · exact length_rest_operand (fun _ _ => Cursor.length_rest_readString) h
  split at h
  · exact length_rest_operand (fun _ _ => Cursor.length_rest_readReference) h
  split at h
  · cases h
    exact hforward
  split at h
  · rw [cursor_of_map_goOn h]
    exact hforward
  · exact length_rest_word h

/-! ### A whole formula -/

/-- Takes units up to the first at fault, or until only space is left. -/
def run (v : Vocabulary) (c : Compiler) : Except Fault Compiler :=
  let here := { c with cursor := c.cursor.skipSpace }
  match _hb : here.cursor.current with
  | none => .ok here
  | some b =>
    match _hstep : here.step v b with
    | .ok after => run v after
    | .error fault => .error fault
termination_by c.cursor.rest.length
decreasing_by
  exact Nat.lt_of_lt_of_le (length_rest_step _hb _hstep) (Cursor.length_rest_passWhile_le _ _)

/-- Releases all that waits.  A formula that put nothing out has ended too early. -/
def finish (c : Compiler) : Except Fault Postfix := c.builder.finish c.cursor.input.length

end Compiler

/-- The formula in postfix order, its words looked up in a vocabulary. -/
def Postfix.ofFormula (v : Vocabulary) (s : String) : Except Fault Postfix :=
  match (Compiler.start (Utf8.bytes s)).run v with
  | .ok c => c.finish
  | .error fault => .error fault

end PathFormula
