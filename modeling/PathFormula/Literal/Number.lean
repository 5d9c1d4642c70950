import PathFormula.Cursor
import PathFormula.Literal.Automaton

/-!
# Reading a number

A number is `-?[0-9]+(\.[0-9]+)?([eE][+-]?[0-9]+)?`.  A fresh reading takes the
longest stretch that could still become a number and then asks whether it is
one.  A reading resumed in a state is strict: where the number ends, only white
space or a delimiter may follow.

## Main definitions

* `Cursor.endNumber`, `Cursor.stopNumber` — the answers where a number stops.
* `Cursor.readNumberFrom` — the loop over the rest.
* `Cursor.readNumber` — reads a number, fresh or resumed.

## Main results

* `input_readNumber` — a reading leaves the input as it is.
* `length_rest_readNumber` — a fresh number takes at least one byte.
-/

namespace PathFormula

open Literal

namespace Cursor

/-- The answer where a number stops: its last state if the number is complete
there, and otherwise the fault of the byte that should have gone on with it. -/
def endNumber (c : Cursor) (last : State) : Outcome State :=
  if last.endsNumber then .ok last c else .error c.symbolFault c

/-- The answer where a number meets a byte that does not go on with it.  A
resumed reading refuses the byte. -/
def stopNumber (strict : Bool) (c : Cursor) (last : State) : Outcome State :=
  if strict then .error c.symbolFault c else c.endNumber last

/-- Reads on in a number that stands in state `last`. -/
def readNumberFrom (strict : Bool) (last : State) : List UInt8 → List UInt8 → Outcome State
  | passed, [] => endNumber ⟨passed, []⟩ last
  | passed, b :: rest =>
    match ByteClass.ofByte? .numeric b with
    | none => .error (symbolFault ⟨passed, b :: rest⟩) ⟨passed, b :: rest⟩
    | some c =>
      match last.move c with
      | .done => .ok last ⟨passed, b :: rest⟩
      | .invalid => stopNumber strict ⟨passed, b :: rest⟩ last
      | .next state =>
        if state.isNumeric then readNumberFrom strict state (b :: passed) rest
        else stopNumber strict ⟨passed, b :: rest⟩ last

/-- Reads a number from the cursor on, or the remainder of one that stands in
the state `resume`.  The answer is the state the number ended in. -/
def readNumber (resume : Option State) (c : Cursor) : Outcome State :=
  readNumberFrom resume.isSome (resume.getD .start) c.passed c.rest

@[simp] theorem cursor_endNumber (c : Cursor) (last : State) :
    (c.endNumber last).cursor = c := by
  unfold endNumber
  split <;> rfl

@[simp] theorem cursor_stopNumber (strict : Bool) (c : Cursor) (last : State) :
    (stopNumber strict c last).cursor = c := by
  unfold stopNumber
  split <;> simp

/-- A reading leaves the input as it is, whether it succeeds or not. -/
theorem input_readNumberFrom (strict : Bool) (last : State) (passed rest : List UInt8) :
    (readNumberFrom strict last passed rest).cursor.input = input ⟨passed, rest⟩ := by
  fun_induction readNumberFrom strict last passed rest with
  | case5 last passed b rest c _ state _ _ ih => rw [ih, input_cons]
  | _ => simp

@[simp] theorem input_readNumber (resume : Option State) (c : Cursor) :
    (c.readNumber resume).cursor.input = c.input :=
  input_readNumberFrom _ _ c.passed c.rest

/-- A reading never moves back. -/
theorem length_rest_readNumberFrom_le (strict : Bool) (last : State) (passed rest : List UInt8) :
    (readNumberFrom strict last passed rest).cursor.rest.length ≤ rest.length := by
  fun_induction readNumberFrom strict last passed rest with
  | case5 last passed b rest c _ state _ _ ih => exact Nat.le_succ_of_le ih
  | _ => simp

/-- A fresh number takes at least one byte. -/
theorem length_rest_readNumber {c c' : Cursor} {last : State}
    (h : c.readNumber none = .ok last c') : c'.rest.length < c.rest.length := by
  obtain ⟨passed, rest⟩ := c
  cases rest with
  | nil => simp [readNumber, readNumberFrom, endNumber, State.endsNumber] at h
  | cons b rest =>
    simp only [readNumber, Option.isSome_none, Option.getD_none, readNumberFrom] at h
    split at h
    · cases h
    · rename_i k _
      cases hm : State.start.move k with
      | done => exact absurd hm (State.move_start_ne_done k)
      | invalid => simp [hm, stopNumber, endNumber, State.endsNumber] at h
      | next s =>
        simp only [hm] at h
        split at h
        · have := length_rest_readNumberFrom_le false s (b :: passed) rest
          rw [h] at this
          simpa using Nat.lt_succ_of_le this
        · simp [stopNumber, endNumber, State.endsNumber] at h

end Cursor

end PathFormula
