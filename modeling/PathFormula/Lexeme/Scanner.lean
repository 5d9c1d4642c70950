import PathFormula.Operator
import PathFormula.Reference

/-!
# Units at a cursor

Tokens and the postfix order of a formula are made by two drivers, each with a
cursor of its own.  Numbers, strings and references have recognisers; what else a
formula is made of is read here, in place, and the cursor is left behind it.

## Main definitions

* `Cursor.readMark` — reads an operator.
* `Cursor.Word`, `Cursor.readWord` — reads a bare word, which may be empty.
* `Cursor.readSymbol` — reads a single character.

## Main results

* `length_rest_readMark`, `length_rest_readWord`, `length_rest_readSymbol` — what is
  read takes at least one byte.
-/

namespace PathFormula.Cursor

/-- Reads the operator that begins with the byte `b` at the cursor: two bytes if they
are an operator, and one otherwise. -/
def readMark (b : UInt8) (c : Cursor) : Mark × Cursor :=
  match c.peek.bind fun next => Operator.ofBytes? [b, next] with
  | some op => (.operator op, c.forward 2)
  | none => (.ofByte b, c.forward 1)

/-- A bare word in a formula. -/
structure Word where
  /-- The word in small letters, or nothing if none stands at the cursor. -/
  text : String
  /-- Whether an opening parenthesis follows directly. -/
  call : Bool
  /-- The offset of its first byte. -/
  offset : Nat
  deriving DecidableEq, Repr

/-- Reads as many word bytes as there are.  An opening parenthesis behind them is left
where it is. -/
def readWord (c : Cursor) : Word × Cursor :=
  let after := c.passWhile Byte.isWord
  (⟨(after.textFrom c.position).toLower, after.current == some '('.toUInt8, c.position⟩, after)

/-- Reads a single character, with all the bytes that continue it. -/
def readSymbol (c : Cursor) : String × Cursor :=
  let after := (c.forward 1).passWhile Utf8.isContinuation
  (after.textFrom c.position, after)

/-! ### At least one byte is taken -/

variable {c : Cursor} {b : UInt8}

theorem length_rest_passWhile_le (p : UInt8 → Bool) (c : Cursor) :
    (c.passWhile p).rest.length ≤ c.rest.length :=
  (List.dropWhile_sublist p).length_le

theorem length_rest_forward (n : Nat) (c : Cursor) :
    (c.forward n).rest.length = c.rest.length - n := by
  rw [forward]
  fun_induction forwardFrom n c.passed c.rest with
  | case1 => rfl
  | case2 => simp
  | case3 n passed b rest ih => rw [ih, List.length_cons, Nat.add_sub_add_right]

theorem length_rest_pos (hc : c.current = some b) : 0 < c.rest.length := by
  obtain ⟨more, hmore⟩ := List.head?_eq_some_iff.mp hc
  rw [hmore]
  exact Nat.succ_pos _

theorem length_rest_readMark (hc : c.current = some b) :
    (c.readMark b).2.rest.length < c.rest.length := by
  have hpos := length_rest_pos hc
  unfold readMark
  split
  · rw [length_rest_forward]
    omega
  · rw [length_rest_forward]
    omega

theorem length_rest_readSymbol (hc : c.current = some b) :
    c.readSymbol.2.rest.length < c.rest.length := by
  have hpos := length_rest_pos hc
  have hle := length_rest_passWhile_le Utf8.isContinuation (c.forward 1)
  rw [length_rest_forward] at hle
  exact Nat.lt_of_le_of_lt hle (by omega)

/-- Only where no word stands is nothing taken. -/
theorem length_rest_readWord (hword : c.readWord.1.text ≠ "") :
    c.readWord.2.rest.length < c.rest.length := by
  have hsplit := List.takeWhile_append_dropWhile (p := Byte.isWord) (l := c.rest)
  have hlength := congrArg List.length hsplit
  rw [List.length_append] at hlength
  cases htake : c.rest.takeWhile Byte.isWord with
  | nil =>
    refine absurd ?_ hword
    simp only [readWord, passWhile, textFrom, position, htake, List.reverse_nil,
      List.nil_append, Nat.sub_self, List.take_zero, Utf8.text_nil]
    decide +kernel
  | cons b more =>
    rw [htake, List.length_cons] at hlength
    change (c.rest.dropWhile Byte.isWord).length < c.rest.length
    omega

end PathFormula.Cursor
