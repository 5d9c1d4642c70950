import PathFormula.Literal.Number

/-!
# Reading a quoted string

A string stands between two equal delimiters.  Inside it white space other than
the space and control bytes may not stand, and a backslash begins one of the
escapes `\" \\ \/ \b \f \n \r \t` or four hexadecimal digits after `\u`.

A fault inside a string depends on what is to come.  If the delimiter still
follows unescaped, the string ends and the faulty byte is to blame; if not, the
string was never closed, and that is said instead.

## Main definitions

* `Cursor.stringFault` — the fault of the byte at the cursor inside a string.
* `Cursor.stringMove` — what a byte does to a string.
* `Cursor.readStringFrom` — the loop over the rest.
* `Cursor.readString` — reads a string, fresh or resumed, with its closing
  delimiter.

## Main results

* `input_readString` — a reading leaves the input as it is.
* `length_rest_readString_le`, `length_rest_readString` — it never moves back,
  and a fresh string takes at least one byte.
-/

namespace PathFormula.Cursor

open Literal

/-- The fault of the byte at the cursor inside a string. -/
def stringFault (c : Cursor) (delimiter : UInt8) : Fault :=
  if (c.seek [delimiter]).isAtEnd then c.endFault else c.symbolFault

/-- What a byte does to a string that stands in state `last`.  A byte without a
class may not stand in it. -/
def stringMove (delimiter : UInt8) (last : State) (b : UInt8) : Move :=
  match ByteClass.ofByte? (.quoted delimiter) b with
  | some c => last.move c
  | none => .invalid

/-- The opening delimiter leads into the string. -/
theorem stringMove_start {delimiter : UInt8} (h : Byte.isQuote delimiter) :
    stringMove delimiter .start delimiter = .next .string := by
  rw [Byte.isQuote, Bool.or_eq_true, beq_iff_eq, beq_iff_eq] at h
  rcases h with rfl | rfl <;> rfl

/-- Reads on in a string that stands in state `last`. -/
def readStringFrom (delimiter : UInt8) (last : State) :
    List UInt8 → List UInt8 → Outcome Unit
  | passed, [] => .error (endFault ⟨passed, []⟩) ⟨passed, []⟩
  | passed, b :: rest =>
    match stringMove delimiter last b with
    | .next state => readStringFrom delimiter state (b :: passed) rest
    | .done => .ok () ⟨b :: passed, rest⟩
    | .invalid => .error (stringFault ⟨passed, b :: rest⟩ delimiter) ⟨passed, b :: rest⟩

/-- Reads a string from its opening delimiter on, or the remainder of one that
stands in the state `resume`. -/
def readString (delimiter : UInt8) (resume : Option State) (c : Cursor) : Outcome Unit :=
  readStringFrom delimiter (resume.getD .start) c.passed c.rest

/-- A reading leaves the input as it is, whether it succeeds or not. -/
theorem input_readStringFrom (delimiter : UInt8) (last : State) (passed rest : List UInt8) :
    (readStringFrom delimiter last passed rest).cursor.input = input ⟨passed, rest⟩ := by
  fun_induction readStringFrom delimiter last passed rest with
  | case2 last passed b rest state _ ih => rw [ih, input_cons]
  | _ => simp [input_cons]

@[simp] theorem input_readString (delimiter : UInt8) (resume : Option State) (c : Cursor) :
    (c.readString delimiter resume).cursor.input = c.input :=
  input_readStringFrom delimiter _ c.passed c.rest

/-- A reading never moves back. -/
theorem length_rest_readStringFrom_le (delimiter : UInt8) (last : State)
    (passed rest : List UInt8) :
    (readStringFrom delimiter last passed rest).cursor.rest.length ≤ rest.length := by
  fun_induction readStringFrom delimiter last passed rest with
  | case2 last passed b rest state _ ih => exact Nat.le_succ_of_le ih
  | _ => simp

theorem length_rest_readString_le (delimiter : UInt8) (resume : Option State) (c : Cursor) :
    (c.readString delimiter resume).cursor.rest.length ≤ c.rest.length :=
  length_rest_readStringFrom_le delimiter _ c.passed c.rest

/-- A fresh string takes at least one byte. -/
theorem length_rest_readString {delimiter : UInt8} {c c' : Cursor}
    (h : c.readString delimiter none = .ok () c') : c'.rest.length < c.rest.length := by
  obtain ⟨passed, rest⟩ := c
  cases rest with
  | nil => simp [readString, readStringFrom] at h
  | cons b rest =>
    simp only [readString, Option.getD_none, readStringFrom] at h
    split at h
    · rename_i s _
      have := length_rest_readStringFrom_le delimiter s (b :: passed) rest
      rw [h] at this
      simpa using Nat.lt_succ_of_le this
    · cases h
      simp
    · cases h

end PathFormula.Cursor
