import PathFormula.Literal.Quotation

/-!
# Reading a path reference

A path reference is a run of items: reference bytes, quoted keys, and brackets
of two kinds around anything at all in which quotes and brackets match.  It ends
in front of the first byte outside all brackets that begins no item.  A signed
number may stand in front of the items.

## Main definitions

* `Bracket` — the two kinds of brackets.
* `Role` — what a byte is to a reference.
* `Cursor.readItemsFrom` — the loop over the items, with the brackets still open
  and the key being read.
* `Cursor.readReference` — reads a reference, which has at least one item.

## Main results

* `input_readReference` — a reading leaves the input as it is.
* `length_rest_readReference` — a reference takes at least one byte.
-/

namespace PathFormula

open Literal

/-- The kinds of brackets in a path reference. -/
inductive Bracket where
  /-- `[` and `]`. -/
  | square
  /-- `(` and `)`. -/
  | round
  deriving DecidableEq, Repr

/-- What a byte is to a path reference. -/
inductive Role where
  /-- It begins a quoted key, and closes one begun by the same byte. -/
  | quote
  /-- It opens a bracket. -/
  | opening (kind : Bracket)
  /-- It closes a bracket. -/
  | closing (kind : Bracket)
  /-- It is an item by itself. -/
  | reference
  /-- It may only stand inside brackets. -/
  | other
  deriving DecidableEq, Repr

namespace Role

/-- The role of a byte. -/
def ofByte (b : UInt8) : Role :=
  match Char.ofUInt8 b with
  | '[' => opening .square
  | '(' => opening .round
  | ']' => closing .square
  | ')' => closing .round
  | _ =>
    if Byte.isQuote b then quote
    else if Byte.isReference b then reference
    else other

/-- Whether an item begins with the byte. -/
def beginsItem : Role → Bool
  | quote | opening _ | reference => true
  | closing _ | other => false

end Role

namespace Cursor

/-- Reads on in the items inside the brackets `nest`, innermost first.  Inside a
quoted key, `key` holds its quote and the state it stands in. -/
def readItemsFrom (nest : List Bracket) (key : Option (UInt8 × State)) :
    List UInt8 → List UInt8 → Outcome Unit
  | passed, [] =>
    if key.isNone && nest.isEmpty then .ok () ⟨passed, []⟩
    else .error (endFault ⟨passed, []⟩) ⟨passed, []⟩
  | passed, b :: rest =>
    match key with
    | some (delimiter, last) =>
      match stringMove delimiter last b with
      | .next state => readItemsFrom nest (some (delimiter, state)) (b :: passed) rest
      | .done => readItemsFrom nest none (b :: passed) rest
      | .invalid => .error (stringFault ⟨passed, b :: rest⟩ delimiter) ⟨passed, b :: rest⟩
    | none =>
      match Role.ofByte b with
      | .quote => readItemsFrom nest (some (b, .string)) (b :: passed) rest
      | .opening kind => readItemsFrom (kind :: nest) none (b :: passed) rest
      | .closing kind =>
        match nest with
        | [] => .ok () ⟨passed, b :: rest⟩
        | innermost :: outer =>
          if kind = innermost then readItemsFrom outer none (b :: passed) rest
          else .error (.unbalancedParens passed.length) ⟨passed, b :: rest⟩
      | .reference => readItemsFrom nest none (b :: passed) rest
      | .other =>
        if nest.isEmpty then .ok () ⟨passed, b :: rest⟩
        else readItemsFrom nest none (b :: passed) rest

/-- Reads the items of a reference from the cursor on. -/
def readItems (c : Cursor) : Outcome Unit := readItemsFrom [] none c.passed c.rest

/-- Reads a path reference from the cursor on.  A sign that begins no number is
refused like any other byte that begins no item. -/
def readReference (c : Cursor) : Outcome Unit :=
  match c.current with
  | none => .error c.symbolFault c
  | some b =>
    if Byte.isSign b then
      match c.readNumber none with
      | .ok _ after => after.readItems
      | .error _ _ => .error c.symbolFault c
    else if (Role.ofByte b).beginsItem then c.readItems
    else .error c.symbolFault c

/-- A quoted key is read as a string is, and the items go on behind it. -/
theorem readItemsFrom_key (nest : List Bracket) (delimiter : UInt8) (last : State)
    (passed rest : List UInt8) :
    readItemsFrom nest (some (delimiter, last)) passed rest =
      match readStringFrom delimiter last passed rest with
      | .ok _ after => readItemsFrom nest none after.passed after.rest
      | .error fault after => .error fault after := by
  induction rest generalizing last passed with
  | nil => rfl
  | cons b rest ih =>
    rw [readItemsFrom, readStringFrom]
    cases stringMove delimiter last b with
    | next state => exact ih state (b :: passed)
    | done => rfl
    | invalid => rfl

/-- Reading items leaves the input as it is, whether it succeeds or not. -/
theorem input_readItemsFrom (nest : List Bracket) (key : Option (UInt8 × State))
    (passed rest : List UInt8) :
    (readItemsFrom nest key passed rest).cursor.input = input ⟨passed, rest⟩ := by
  fun_induction readItemsFrom nest key passed rest with
  | case3 | case4 | case6 | case7 | case9 | case11 | case13 => rename_i ih; rw [ih, input_cons]
  | _ => rfl

@[simp] theorem input_readItems (c : Cursor) : c.readItems.cursor.input = c.input :=
  input_readItemsFrom [] none c.passed c.rest

/-- Reading items never moves back. -/
theorem length_rest_readItemsFrom_le (nest : List Bracket) (key : Option (UInt8 × State))
    (passed rest : List UInt8) :
    (readItemsFrom nest key passed rest).cursor.rest.length ≤ rest.length := by
  fun_induction readItemsFrom nest key passed rest with
  | case3 | case4 | case6 | case7 | case9 | case11 | case13 =>
    rename_i ih
    exact Nat.le_succ_of_le ih
  | _ => simp

theorem length_rest_readItems_le (c : Cursor) :
    c.readItems.cursor.rest.length ≤ c.rest.length :=
  length_rest_readItemsFrom_le [] none c.passed c.rest

/-- Where an item begins, at least one byte is taken. -/
theorem length_rest_readItems {passed rest : List UInt8} {b : UInt8} {c : Cursor}
    (hb : (Role.ofByte b).beginsItem) (h : readItems ⟨passed, b :: rest⟩ = .ok () c) :
    c.rest.length ≤ rest.length := by
  -- Whatever the first item is, the loop goes on behind its first byte.
  have further {nest : List Bracket} {key : Option (UInt8 × State)}
      (h : readItemsFrom nest key (b :: passed) rest = .ok () c) :
      c.rest.length ≤ rest.length := by
    have hr := length_rest_readItemsFrom_le nest key (b :: passed) rest
    rw [h] at hr
    exact hr
  rw [readItems, readItemsFrom] at h
  cases hr : Role.ofByte b with
  | quote => simp only [hr] at h; exact further h
  | opening kind => simp only [hr] at h; exact further h
  | reference => simp only [hr] at h; exact further h
  | closing kind => simp [hr, Role.beginsItem] at hb
  | other => simp [hr, Role.beginsItem] at hb

@[simp] theorem input_readReference (c : Cursor) : c.readReference.cursor.input = c.input := by
  unfold readReference
  split
  · rfl
  · split
    · have hn := input_readNumber none c
      split
      · rename_i h
        rw [h] at hn
        rw [input_readItems]
        exact hn
      · rfl
    · split
      · exact input_readItems c
      · rfl

/-- A reference takes at least one byte. -/
theorem length_rest_readReference {c c' : Cursor} (h : c.readReference = .ok () c') :
    c'.rest.length < c.rest.length := by
  obtain ⟨passed, rest⟩ := c
  cases rest with
  | nil => simp [readReference, current] at h
  | cons b rest =>
    simp only [readReference, current, List.head?_cons] at h
    split at h
    · split at h
      · rename_i after hn
        have hlt := length_rest_readNumber hn
        have hle := length_rest_readItems_le after
        rw [h] at hle
        exact Nat.lt_of_le_of_lt hle hlt
      · cases h
    · split at h
      · rename_i hb
        exact Nat.lt_succ_of_le (length_rest_readItems hb h)
      · cases h

end Cursor

end PathFormula
