import PathFormula.Proofs.Blame
import PathFormula.Session

/-!
# Sessions stay in their input

Whatever is asked of a cursor, in whatever order and however often it fails, the cursor
stays in its input and the input stays as it is.  Only going back to a kept place moves the
cursor back, and this place is in the input because the cursor has been there.  A refusal is
true of the input, and the cursor is left where the refusal points, so that a session can
go on from there.

## Main definitions

* `Fault.HoldsAt bytes c` — what a fault says of the bytes is true, and the cursor `c`
  stands where it says so.
* `Session.Within bytes` — a session stands in the bytes, and so do the places it kept.

## Main results

* `Cursor.input_ask`, `Cursor.position_le_ask`, `Cursor.refuses_of_ask` — what one request
  can do to a cursor.
* `Session.Within.step`, `Session.Within.run` — one action keeps a session within its bytes,
  and so does a whole run.
* `Session.step_run` — **every action of every session stays in its input.**
-/

namespace PathFormula

open Literal

namespace Cursor

variable {c c' : Cursor} {fault : Fault}

/-! ### Where a cursor moves -/

theorem le_position_skipSpace (c : Cursor) : c.position ≤ c.skipSpace.position := by
  simp [skipSpace, passWhile, position]

theorem le_position_seekFrom (set passed rest : List UInt8) :
    passed.length ≤ (seekFrom set passed rest).position := by
  fun_induction seekFrom set passed rest with
  | case1 => exact Nat.le_refl _
  | case2 => exact Nat.le_refl _
  | case3 passed b rest _ ih => exact Nat.le_of_succ_le ih

/-- In the same input, a cursor with fewer bytes left stands further on. -/
theorem position_le_of_length_rest_le (hinput : c'.input = c.input)
    (hrest : c'.rest.length ≤ c.rest.length) : c.position ≤ c'.position := by
  have hlength := congrArg List.length hinput
  simp only [input, List.length_append, List.length_reverse] at hlength
  simp only [position]
  omega

/-! ### What a recogniser leaves -/

/-- A reading of a reference never moves back. -/
theorem length_rest_readReference_le (c : Cursor) :
    c.readReference.cursor.rest.length ≤ c.rest.length := by
  unfold readReference
  split
  · exact Nat.le_refl _
  · split
    · split
      next last after hnumber =>
        exact Nat.le_trans (length_rest_readItems_le after)
          (Nat.le_of_lt (length_rest_readNumber hnumber))
      next => exact Nat.le_refl _
    · split
      · exact length_rest_readItems_le c
      · exact Nat.le_refl _

/-- A reference is refused where its items are, or at the byte it should begin with. -/
theorem refuses_of_readReference (h : c.readReference = .error fault c') : c'.Refuses fault := by
  unfold readReference at h
  split at h
  · cases h
    exact .symbol
  · split at h
    · split at h
      · exact (refuses_of_readItemsFrom h).1
      · cases h
        exact .symbol
    · split at h
      · exact (refuses_of_readItemsFrom h).1
      · cases h
        exact .symbol

theorem refused_ofOutcome {α : Type} {answer : α → Answer} {outcome : Outcome α}
    (hanswer : ∀ a, answer a ≠ .refused fault)
    (h : (Answer.ofOutcome answer outcome).1 = .refused fault) :
    outcome = .error fault (Answer.ofOutcome answer outcome).2 := by
  cases outcome with
  | ok a c => exact absurd h (hanswer a)
  | error fault' c =>
    cases h
    rfl

@[simp] theorem snd_ofOutcome {α : Type} (answer : α → Answer) (outcome : Outcome α) :
    (Answer.ofOutcome answer outcome).2 = outcome.cursor := by
  cases outcome <;> rfl

/-! ### One request -/

/-- A request leaves the input as it is. -/
theorem input_ask (c : Cursor) (request : Request) : (c.ask request).2.input = c.input := by
  cases request with
  | advance =>
    obtain ⟨passed, rest⟩ := c
    rcases rest with _ | ⟨b, _ | ⟨next, rest⟩⟩
    · rfl
    · rfl
    · exact input_cons passed (next :: rest) b
  | forward n => exact input_forward n c
  | skipSpace => exact input_skipSpace c
  | seek set => exact input_seek set c
  | readNumber resume => rw [ask, snd_ofOutcome, input_readNumber]
  | readString delimiter resume => rw [ask, snd_ofOutcome, input_readString]
  | readReference => rw [ask, snd_ofOutcome, input_readReference]

/-- No request moves a cursor back. -/
theorem position_le_ask (c : Cursor) (request : Request) :
    c.position ≤ (c.ask request).2.position := by
  have hinput := input_ask c request
  cases request with
  | advance =>
    obtain ⟨passed, rest⟩ := c
    rcases rest with _ | ⟨b, _ | ⟨next, rest⟩⟩
    · exact Nat.le_refl _
    · exact Nat.le_refl _
    · exact Nat.le_succ _
  | forward n =>
    have hposition := position_le_length c
    rw [ask, position_forward]
    omega
  | skipSpace => exact le_position_skipSpace c
  | seek set => exact le_position_seekFrom set c.passed c.rest
  | readNumber resume =>
    refine position_le_of_length_rest_le hinput ?_
    rw [ask, snd_ofOutcome]
    exact length_rest_readNumberFrom_le _ _ c.passed c.rest
  | readString delimiter resume =>
    refine position_le_of_length_rest_le hinput ?_
    rw [ask, snd_ofOutcome]
    exact length_rest_readString_le delimiter resume c
  | readReference =>
    refine position_le_of_length_rest_le hinput ?_
    rw [ask, snd_ofOutcome]
    exact length_rest_readReference_le c

/-- A request is refused where the cursor is left. -/
theorem refuses_of_ask {request : Request} (h : (c.ask request).1 = .refused fault) :
    (c.ask request).2.Refuses fault := by
  cases request with
  | advance =>
    rw [ask] at h
    split at h <;> cases h
  | forward n => cases h
  | skipSpace => cases h
  | seek set => cases h
  | readNumber resume =>
    exact (refuses_of_readNumberFrom (refused_ofOutcome (by simp) h)).1
  | readString delimiter resume =>
    exact (refuses_of_readStringFrom (refused_ofOutcome (by simp) h)).1
  | readReference => exact refuses_of_readReference (refused_ofOutcome (by simp) h)

end Cursor

/-! ### What refusals say -/

/-- What the fault says of the bytes is true, and the cursor stands where it says so.  An
early end is said of the end of the bytes, wherever the cursor stands. -/
def Fault.HoldsAt (bytes : List UInt8) (c : Cursor) : Fault → Prop
  | endOfInput o => o = bytes.length
  | invalidSymbol o byte =>
    c.position = o ∧ byte = bytes[o]? ∧ (byte = none ↔ o = bytes.length)
  | unbalancedParens o => c.position = o
  | unknownFunction _ _ | unknownConstant _ _ | malformedFormula _ => False

/-- What is refused at a cursor holds there, and points into its input. -/
theorem Cursor.Refuses.holdsAt {c : Cursor} {fault : Fault} (h : c.Refuses fault) :
    fault.HoldsAt c.input c ∧ ∀ o ∈ fault.offset?, o ≤ c.input.length := by
  have hposition := c.position_le_length
  have hat := c.getElem?_position
  cases h with
  | symbol =>
    refine ⟨⟨rfl, hat.symm, ?_⟩, ?_⟩
    · rw [← hat, List.getElem?_eq_none_iff]
      omega
    · rintro o ⟨⟩
      exact hposition
  | ended =>
    rw [Cursor.endFault_eq]
    refine ⟨rfl, ?_⟩
    rintro o ⟨⟩
    exact Nat.le_refl _
  | bracket =>
    refine ⟨rfl, ?_⟩
    rintro o ⟨⟩
    exact hposition

namespace Session

/-- The session stands in the bytes, and so do the places it kept. -/
structure Within (bytes : List UInt8) (s : Session) : Prop where
  input_eq : s.cursor.input = bytes
  marks_le : ∀ o ∈ s.marks, o ≤ bytes.length

variable {bytes : List UInt8} {s : Session}

theorem within_start (bytes : List UInt8) : (start bytes).Within bytes where
  input_eq := Cursor.input_ofBytes bytes
  marks_le o ho := by cases ho

/-- One action keeps a session within its bytes. -/
theorem Within.step (h : s.Within bytes) (action : Action) : (s.step action).2.Within bytes := by
  cases action with
  | ask request => exact ⟨(Cursor.input_ask s.cursor request).trans h.input_eq, h.marks_le⟩
  | keep =>
    refine ⟨h.input_eq, ?_⟩
    intro o ho
    rcases List.mem_append.mp ho with ho | ho
    · exact h.marks_le o ho
    · rw [List.mem_singleton.mp ho, ← h.input_eq]
      exact s.cursor.position_le_length
  | restore index =>
    rw [Session.step]
    split
    · exact ⟨(Cursor.input_moveTo _ s.cursor).trans h.input_eq, h.marks_le⟩
    · exact h

/-- A run keeps a session within its bytes. -/
theorem Within.run (h : s.Within bytes) (actions : List Action) :
    (s.run actions).Within bytes := by
  induction actions generalizing s with
  | nil => exact h
  | cons action actions ih => exact ih (h.step action)

/-- Only going back to a kept place moves the cursor back. -/
theorem position_le_step {action : Action} (h : ∀ index, action ≠ .restore index) :
    s.cursor.position ≤ (s.step action).2.cursor.position := by
  cases action with
  | ask request => exact Cursor.position_le_ask s.cursor request
  | keep => exact Nat.le_refl _
  | restore index => exact absurd rfl (h index)

/-- Going back to a kept place brings the cursor there. -/
theorem Within.position_restore (h : s.Within bytes) {index o : Nat}
    (ho : s.marks[index]? = some o) :
    (s.step (.restore index)).2.cursor.position = o := by
  have hle := h.marks_le o (List.mem_of_getElem? ho)
  rw [Session.step, ho]
  simp only
  rw [Cursor.position_moveTo, h.input_eq]
  omega

/-- A refusal leaves the cursor where it holds. -/
theorem refuses_of_step {action : Action} {fault : Fault}
    (h : (s.step action).1 = .refused fault) : (s.step action).2.cursor.Refuses fault := by
  cases action with
  | ask request => exact Cursor.refuses_of_ask h
  | keep => cases h
  | restore index =>
    rw [Session.step] at h
    split at h <;> cases h

/-- **Every action of every session stays in its input.**

Whatever has been done in a session over `bytes`, and however much of it has failed, one
more action leaves the bytes as they are and the cursor in them.  The cursor does not go
back, unless it goes to a place that was kept, and then it comes to just this place.  If the
action is refused, the fault points into the bytes and is true of them, and the cursor
stands where it says so. -/
theorem step_run (bytes : List UInt8) (actions : List Action) (action : Action) :
    let before := (start bytes).run actions
    let after := (before.step action).2
    after.cursor.input = bytes ∧ after.cursor.position ≤ bytes.length ∧
      ((∀ index, action ≠ .restore index) → before.cursor.position ≤ after.cursor.position) ∧
      (∀ index o, action = .restore index → before.marks[index]? = some o →
        after.cursor.position = o) ∧
      ∀ fault, (before.step action).1 = .refused fault →
        fault.HoldsAt bytes after.cursor ∧ ∀ o ∈ fault.offset?, o ≤ bytes.length := by
  intro before after
  have hbefore : before.Within bytes := (within_start bytes).run actions
  have hafter : after.Within bytes := hbefore.step action
  refine ⟨hafter.input_eq, ?_, position_le_step, ?_, ?_⟩
  · rw [← hafter.input_eq]
    exact after.cursor.position_le_length
  · rintro index o rfl ho
    exact hbefore.position_restore ho
  · intro fault h
    have hrefuses : after.cursor.Refuses fault := refuses_of_step h
    rw [← hafter.input_eq]
    exact hrefuses.holdsAt

end Session

end PathFormula
