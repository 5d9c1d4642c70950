import PathFormula.Reference

/-!
# Sessions with a cursor

A cursor can be moved and set to read, again and again, and whoever does so may keep
places of it and come back to them.  A reading that fails ends nothing: the session goes
on from where the cursor was left.

## Main definitions

* `Cursor.Request`, `Cursor.Answer` — what a cursor can be asked, and what it answers.
* `Cursor.ask` — the answer to a request, and where the cursor stands then.
* `Session` — a cursor and the places that were kept.
* `Session.Action`, `Session.step`, `Session.run` — what can be done in a session, one
  action, and one action after the other.
-/

namespace PathFormula

open Literal

namespace Cursor

/-- What a cursor can be asked. -/
inductive Request where
  /-- To step onto the next byte. -/
  | advance
  /-- To go forward by a number of bytes. -/
  | forward (n : Nat)
  /-- To pass white space. -/
  | skipSpace
  /-- To go to the first unescaped byte of a set. -/
  | seek (set : List UInt8)
  /-- To read a number, or what is left of one. -/
  | readNumber (resume : Option State)
  /-- To read a string, or what is left of one. -/
  | readString (delimiter : UInt8) (resume : Option State)
  /-- To read a path reference. -/
  | readReference
  deriving DecidableEq, Repr

/-- What a cursor answers. -/
inductive Answer where
  /-- That it has done what it was asked. -/
  | done
  /-- The byte it has come to, if there is one. -/
  | byte (byte : Option UInt8)
  /-- The offset of the byte it was sent for, if it found one. -/
  | place (offset : Option Nat)
  /-- The state in which a number has ended. -/
  | number (last : State)
  /-- The number of places that were kept before this one. -/
  | kept (index : Nat)
  /-- That it could not read what it was asked to. -/
  | refused (fault : Fault)
  deriving DecidableEq, Repr

/-- The answer of a recogniser. -/
def Answer.ofOutcome {α : Type} (answer : α → Answer) : Outcome α → Answer × Cursor
  | .ok a c => (answer a, c)
  | .error fault c => (.refused fault, c)

/-- What the cursor answers to a request, and where it stands then. -/
def ask (c : Cursor) : Request → Answer × Cursor
  | .advance =>
    match c.advance with
    | some (b, after) => (.byte (some b), after)
    | none => (.byte none, c)
  | .forward n => (.done, c.forward n)
  | .skipSpace => (.byte c.skipSpace.current, c.skipSpace)
  | .seek set => (.place (c.seek set).found?, c.seek set)
  | .readNumber resume => Answer.ofOutcome Answer.number (c.readNumber resume)
  | .readString delimiter resume =>
    Answer.ofOutcome (fun _ => .done) (c.readString delimiter resume)
  | .readReference => Answer.ofOutcome (fun _ => .done) c.readReference

end Cursor

/-- A cursor, and the places of it that were kept, in the order in which they were. -/
structure Session where
  /-- Where the cursor stands. -/
  cursor : Cursor
  /-- The offsets that were kept. -/
  marks : List Nat
  deriving DecidableEq, Repr

namespace Session

/-- What can be done in a session. -/
inductive Action where
  /-- To ask the cursor. -/
  | ask (request : Cursor.Request)
  /-- To keep the place of the cursor. -/
  | keep
  /-- To go back to a place that was kept, by the number of those kept before it. -/
  | restore (index : Nat)
  deriving DecidableEq, Repr

/-- A session that begins in front of all of `bytes`. -/
def start (bytes : List UInt8) : Session := ⟨.ofBytes bytes, []⟩

/-- One action.  Where no place was kept that could be gone back to, the cursor stays. -/
def step (s : Session) : Action → Cursor.Answer × Session
  | .ask request => ((s.cursor.ask request).1, { s with cursor := (s.cursor.ask request).2 })
  | .keep => (.kept s.marks.length, { s with marks := s.marks ++ [s.cursor.position] })
  | .restore index =>
    match s.marks[index]? with
    | some offset => (.done, { s with cursor := s.cursor.moveTo offset })
    | none => (.done, s)

/-- One action after the other. -/
def run (s : Session) (actions : List Action) : Session :=
  actions.foldl (fun s action => (s.step action).2) s

end Session

end PathFormula
