import PathFormula.Postfix
import PathFormula.Reading
import PathFormula.Vocabulary

/-!
# Ordering the pieces of a formula

The pieces of a formula are taken one by one.  Operands go straight to the
output.  Operators, functions and open parentheses wait on a stack: an operator
releases those above it that bind at least as tightly, a closing parenthesis
releases all down to its partner, and the end of the formula releases the rest.

A formula is at fault at its first faulty piece, and only a formula that was
read to its end can be at fault for what still waits there.

Here the formula has been read before it is ordered.  A compiler, which orders it while it
goes over the bytes, comes to the same (`Postfix.ofFormula_eq_ofReading`).

## Main definitions

* `Pending` — what waits: an operator, a function or an open parenthesis.
* `Pending.release` — what waits as an entry of the output.
* `Pending.yieldsTo` — whether it is released before an operator is stacked.
* `Builder` — the stack, the output, and where in the formula they stand.
* `releaseWhile` — releases from the top of the stack as long as a test holds.
* `Builder.step`, `Builder.run`, `Builder.finish` — one piece, many, the end.
* `Postfix.ofReading` — a reading in postfix order, or its first fault.
-/

namespace PathFormula

/-- What waits to be released. -/
inductive Pending where
  /-- An operator, or a single equals sign, which is only found out on release. -/
  | operator (mark : Mark)
  /-- A function whose argument is still to come or not yet complete. -/
  | function (name : String)
  /-- An open parenthesis and its offset. -/
  | openParen (offset : Nat)
  deriving DecidableEq, Repr

namespace Pending

/-- Whether an open parenthesis waits. -/
def isOpenParen : Pending → Bool
  | openParen _ => true
  | _ => false

/-- What waits as an entry of the output.  The equals sign is no operator, and an
open parenthesis that is released was never closed. -/
def release : Pending → Except Fault Entry
  | operator (.operator op) => .ok (.operator op)
  | operator .equals => .error (.malformedFormula Mark.equals.symbol)
  | function name => .ok (.function name)
  | openParen offset => .error (.unbalancedParens offset)

/-- Whether the operator `above`, which waits, goes before `mark` is stacked:
it does if it binds tighter, and at the same tier unless it groups from the
right.  The equals sign makes every operator go and never goes itself. -/
def operatorYieldsTo (above mark : Mark) : Bool :=
  match above, mark with
  | .operator above, .operator op =>
    op.tier < above.tier || op.tier == above.tier && !above.isRightAssociative
  | .operator _, .equals => true
  | .equals, _ => false

/-- Whether what waits is released before `mark` is stacked.  A function always
is, since its argument is complete, and an open parenthesis never. -/
def yieldsTo (mark : Mark) : Pending → Bool
  | operator above => operatorYieldsTo above mark
  | function _ => true
  | openParen _ => false

end Pending

/-- Releases from the top of the stack onto the output as long as a test holds.
The stack has its top first, and the output its newest entry. -/
def releaseWhile (p : Pending → Bool) :
    List Pending → List Entry → Except Fault (List Pending × List Entry)
  | [], output => .ok ([], output)
  | top :: below, output =>
    if p top then
      match top.release with
      | .ok entry => releaseWhile p below (entry :: output)
      | .error fault => .error fault
    else .ok (top :: below, output)

/-- A formula on its way to postfix order. -/
structure Builder where
  /-- The number of bytes taken so far. -/
  offset : Nat
  /-- What waits, the top first. -/
  stack : List Pending
  /-- What has been released, the newest first. -/
  output : List Entry
  /-- Whether an operand has just ended. -/
  afterOperand : Bool
  deriving DecidableEq, Repr

namespace Builder

/-- The builder in front of a formula. -/
def start : Builder := ⟨0, [], [], false⟩

/-- Stacks an operator behind an operand. -/
def pushOperator (b : Builder) (mark : Mark) : Except Fault Builder :=
  match releaseWhile (Pending.yieldsTo mark) b.stack b.output with
  | .ok (stack, output) => .ok { b with stack := .operator mark :: stack, output }
  | .error fault => .error fault

/-- Releases down to the open parenthesis that a closing one at `offset` belongs
to, and drops it. -/
def closeParen (b : Builder) (offset : Nat) : Except Fault Builder :=
  match releaseWhile (fun p => !p.isOpenParen) b.stack b.output with
  | .ok (_ :: stack, output) => .ok { b with stack, output }
  | .ok ([], _) => .error (.unbalancedParens offset)
  | .error fault => .error fault

/-- Puts an operand on the output. -/
def emit (b : Builder) (text : String) : Builder :=
  { b with output := .operand text :: b.output }

/-- Puts something on the stack. -/
def push (b : Builder) (p : Pending) : Builder := { b with stack := p :: b.stack }

/-- Takes a lexeme that stands at `offset`, leaving the place of the builder to
`step`. -/
def take (v : Vocabulary) (b : Builder) (offset : Nat) : Lexeme → Except Fault Builder
  | .operator mark =>
    if b.afterOperand then b.pushOperator mark
    else .error (.invalidSymbol offset mark.bytes.head?)
  | .number bytes => .ok (b.emit (Utf8.text bytes))
  | .quoted bytes => .ok (b.emit (Utf8.text bytes))
  | .reference bytes => .ok (b.emit (Utf8.text bytes))
  | .openParen => .ok (b.push (.openParen offset))
  | .closeParen => b.closeParen offset
  | .dot => .error (.invalidSymbol offset Lexeme.dot.bytes.head?)
  | .word bytes true =>
    let name := Lexeme.wordText bytes
    if v.isFunction name then .ok (b.push (.function name))
    else .error (.unknownFunction name offset)
  | .word bytes false =>
    let name := Lexeme.wordText bytes
    if v.isConstant name then .ok (b.emit name)
    else .error (.unknownConstant name offset)
  | .symbol first _ => .error (.invalidSymbol offset (some first))

/-- Takes a piece. -/
def step (v : Vocabulary) (b : Builder) (p : Piece) : Except Fault Builder :=
  match b.take v (b.offset + p.gap.length) p.lexeme with
  | .ok after =>
    .ok { after with
      offset := b.offset + p.bytes.length
      afterOperand := p.lexeme.endsOperand }
  | .error fault => .error fault

/-- Takes pieces in order, up to the first at fault. -/
def run (v : Vocabulary) : Builder → List Piece → Except Fault Builder
  | b, [] => .ok b
  | b, p :: ps =>
    match b.step v p with
    | .ok after => run v after ps
    | .error fault => .error fault

/-- Ends a formula of `length` bytes: releases all that waits.  A formula that
put nothing out has ended too early. -/
def finish (b : Builder) (length : Nat) : Except Fault Postfix :=
  match releaseWhile (fun _ => true) b.stack b.output with
  | .ok (_, []) => .error (.endOfInput length)
  | .ok (_, entry :: output) => .ok ⟨(entry :: output).reverse⟩
  | .error fault => .error fault

end Builder

namespace Postfix

/-- The postfix order of a reading of `length` bytes. -/
def ofReading (v : Vocabulary) (length : Nat) (r : Reading) : Except Fault Postfix :=
  match Builder.start.run v r.pieces with
  | .error fault => .error fault
  | .ok b =>
    match r.ending with
    | .error fault => .error fault
    | .ok _ => b.finish length

end Postfix

end PathFormula
