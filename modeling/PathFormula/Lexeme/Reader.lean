import PathFormula.Lexeme
import PathFormula.Reference

/-!
# Reading one lexeme

The first byte of a lexeme decides its kind, with the help of one fact about what
came before: where an operand has just ended, a sign is an operator, and anywhere
else it begins a number.  Nothing before the lexeme has any other influence
(`Cursor.readNumber_behind`, `Cursor.readString_behind`, `Cursor.readReference_behind`), so
a lexeme is read from the bytes that follow alone, and its faults are placed from
its own first byte on.

## Main definitions

* `Lead` — what a first byte announces.
* `Lexeme.read` — reads the lexeme at the front of a byte list.

## Main results

* `length_read_le` — a lexeme takes at least its first byte.
-/

namespace PathFormula

/-- What the first byte of a lexeme announces. -/
inductive Lead where
  /-- An operator. -/
  | operator
  /-- A number, or an operator if an operand has ended. -/
  | sign
  /-- A number. -/
  | digit
  /-- A point by itself: no number begins with one. -/
  | dot
  /-- A string. -/
  | quote
  /-- A path reference. -/
  | root
  /-- An opening parenthesis. -/
  | openParen
  /-- A closing parenthesis. -/
  | closeParen
  /-- A bare word. -/
  | word
  /-- A character by itself. -/
  | symbol
  deriving DecidableEq, Repr

/-- What a byte announces as the first of a lexeme. -/
def Lead.ofByte (b : UInt8) : Lead :=
  if Byte.isSign b then sign
  else if Byte.isOperator b then operator
  else if Byte.isDigit b then digit
  else if Byte.isQuote b then quote
  else
    match Char.ofUInt8 b with
    | '.' => dot
    | '$' | '@' => root
    | '(' => openParen
    | ')' => closeParen
    | _ => if Byte.isWord b then word else symbol

namespace Lexeme

/-- What a lexeme reader answers: the lexeme and the bytes after it, or a fault
placed from the first byte of the lexeme on. -/
abbrev Answer : Type := Except Fault (Lexeme × List UInt8)

/-- The answer for a lexeme that a recogniser has passed over, starting from the
front of the bytes. -/
def ofOutcome {α : Type} (kind : List UInt8 → Lexeme) : Cursor.Outcome α → Answer
  | .ok _ c => .ok (kind c.passed.reverse, c.rest)
  | .error fault _ => .error fault

/-- Reads an operator. -/
def readOperator (b : UInt8) (rest : List UInt8) : Answer :=
  .ok (operator (Mark.read b rest).1, (Mark.read b rest).2)

/-- Reads a number. -/
def readNumber (b : UInt8) (rest : List UInt8) : Answer :=
  ofOutcome number ((Cursor.ofBytes (b :: rest)).readNumber none)

/-- Reads a bare word.  It goes as far as word bytes go, and is called if it
stands directly in front of an opening parenthesis. -/
def readWord (b : UInt8) (rest : List UInt8) : Answer :=
  let after := rest.dropWhile Byte.isWord
  .ok (word (b :: rest.takeWhile Byte.isWord) (after.head? == some '('.toUInt8), after)

/-- Reads a single character with all the bytes that continue it. -/
def readSymbol (b : UInt8) (rest : List UInt8) : Answer :=
  .ok (symbol b (rest.takeWhile Utf8.isContinuation), rest.dropWhile Utf8.isContinuation)

/-- Reads the lexeme that begins with the byte `b`, which is not space. -/
def read (afterOperand : Bool) (b : UInt8) (rest : List UInt8) : Answer :=
  match Lead.ofByte b with
  | .operator => readOperator b rest
  | .sign => if afterOperand then readOperator b rest else readNumber b rest
  | .digit => readNumber b rest
  | .dot => .ok (dot, rest)
  | .quote => ofOutcome quoted ((Cursor.ofBytes (b :: rest)).readString b none)
  | .root => ofOutcome reference (Cursor.ofBytes (b :: rest)).readReference
  | .openParen => .ok (openParen, rest)
  | .closeParen => .ok (closeParen, rest)
  | .word => readWord b rest
  | .symbol => readSymbol b rest

/-! ### A lexeme takes at least its first byte -/

private theorem length_le_of_ofOutcome {α : Type} {kind : List UInt8 → Lexeme}
    {outcome : Cursor.Outcome α} {n : Nat} {l : Lexeme} {after : List UInt8}
    (hlt : ∀ a c, outcome = .ok a c → c.rest.length < n + 1)
    (h : ofOutcome kind outcome = .ok (l, after)) : after.length ≤ n := by
  cases outcome with
  | ok a c =>
    have hc := hlt a c rfl
    cases h
    exact Nat.le_of_lt_succ hc
  | error fault c => cases h

private theorem length_dropWhile_le {α : Type} (p : α → Bool) (as : List α) :
    (as.dropWhile p).length ≤ as.length :=
  (List.dropWhile_sublist p).length_le

private theorem length_readOperator_le {b : UInt8} {rest after : List UInt8} {l : Lexeme}
    (h : readOperator b rest = .ok (l, after)) : after.length ≤ rest.length := by
  cases h
  exact Mark.length_read_le b rest

private theorem length_readNumber_le {b : UInt8} {rest after : List UInt8} {l : Lexeme}
    (h : readNumber b rest = .ok (l, after)) : after.length ≤ rest.length :=
  length_le_of_ofOutcome
    (fun _ _ hc => Cursor.length_rest_readNumber (c := Cursor.ofBytes (b :: rest)) hc) h

/-- A lexeme takes at least its first byte. -/
theorem length_read_le {afterOperand : Bool} {b : UInt8} {rest after : List UInt8} {l : Lexeme}
    (h : read afterOperand b rest = .ok (l, after)) : after.length ≤ rest.length := by
  unfold read at h
  split at h
  · exact length_readOperator_le h
  · split at h
    · exact length_readOperator_le h
    · exact length_readNumber_le h
  · exact length_readNumber_le h
  · cases h; exact Nat.le_refl _
  · exact length_le_of_ofOutcome
      (fun _ _ hc => Cursor.length_rest_readString (c := Cursor.ofBytes (b :: rest)) hc) h
  · exact length_le_of_ofOutcome
      (fun _ _ hc => Cursor.length_rest_readReference (c := Cursor.ofBytes (b :: rest)) hc) h
  · cases h; exact Nat.le_refl _
  · cases h; exact Nat.le_refl _
  · cases h; exact length_dropWhile_le _ _
  · cases h; exact length_dropWhile_le _ _

end Lexeme

end PathFormula
