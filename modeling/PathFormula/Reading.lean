import PathFormula.Lexeme.Reader

/-!
# Reading a formula

A formula is read from front to back as pieces, a piece being a lexeme with the
space in front of it, until only space is left or a lexeme is at fault.  The
pieces before a fault are kept: what else may be wrong with them comes first.

The lexer and the compiler go over a formula with cursors of their own, and follow its
reading (`TokenList.ofFormula_eq_ofReading`, `Postfix.ofFormula_eq_ofReading`).

## Main definitions

* `Piece` — a lexeme and the space in front of it.
* `Reading` — the pieces, and how the reading ended.
* `Reading.ofBytes`, `Reading.ofText` — the reading of a formula.
-/

namespace PathFormula

/-- A lexeme with the space in front of it. -/
structure Piece where
  /-- The space. -/
  gap : List UInt8
  /-- The lexeme. -/
  lexeme : Lexeme
  deriving DecidableEq, Repr

/-- The bytes of a piece, as written. -/
def Piece.bytes (p : Piece) : List UInt8 := p.gap ++ p.lexeme.bytes

/-- What was read of a formula. -/
structure Reading where
  /-- The pieces that were read, in order. -/
  pieces : List Piece
  /-- The space behind the last piece, or the fault of the lexeme there. -/
  ending : Except Fault (List UInt8)

namespace Reading

/-- Reads on at an offset, where `afterOperand` says whether an operand has just
ended, and the pieces already read stand in reverse. -/
def readFrom (afterOperand : Bool) (offset : Nat) (done : List Piece) (bytes : List UInt8) :
    Reading :=
  let gap := bytes.takeWhile Byte.isSpace
  match _hb : bytes.dropWhile Byte.isSpace with
  | [] => ⟨done.reverse, .ok gap⟩
  | b :: rest =>
    match _hl : Lexeme.read afterOperand b rest with
    | .error fault => ⟨done.reverse, .error (fault.shift (offset + gap.length))⟩
    | .ok (lexeme, after) =>
      readFrom lexeme.endsOperand (offset + gap.length + lexeme.bytes.length)
        (⟨gap, lexeme⟩ :: done) after
termination_by bytes.length
decreasing_by
  have hle := Lexeme.length_read_le _hl
  have hdrop := (List.dropWhile_sublist (l := bytes) Byte.isSpace).length_le
  rw [_hb, List.length_cons] at hdrop
  omega

/-- The reading of a byte list. -/
def ofBytes (bytes : List UInt8) : Reading := readFrom false 0 [] bytes

/-- The reading of a text. -/
def ofText (s : String) : Reading := ofBytes (Utf8.bytes s)

/-- The lexemes that were read, in order. -/
def lexemes (r : Reading) : List Lexeme := r.pieces.map Piece.lexeme

end Reading

end PathFormula
