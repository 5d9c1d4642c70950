import PathFormula.Text.Quoted

/-!
# Items of a quoted text

What stands between two quotes, item by item: an item is a character by itself, a backslash
with a letter, or four hexadecimal digits after `\u`.  The items are read first, and then
surrogates written one after the other are put together.

## Main definitions

* `Quoted.Value` — what an item stands for: a character, or a UTF-16 unit.
* `Quoted.Item` — an item as written, with what it stands for.
* `Quoted.readItem`, `Quoted.readItems` — one item, and a whole body.
* `Quoted.join` — the characters that a list of values stands for.
-/

namespace PathFormula.Quoted

/-- What an item of a quoted text stands for. -/
inductive Value where
  /-- A character. -/
  | char (c : Char)
  /-- A UTF-16 unit, which may be half a character. -/
  | unit (u : Nat)
  deriving DecidableEq, Repr

/-- An item of a quoted text. -/
structure Item where
  /-- The characters it is written with. -/
  source : List Char
  /-- What it stands for. -/
  value : Value
  deriving DecidableEq, Repr

/-- The number of bytes an item is written with. -/
def Item.width (i : Item) : Nat := (Utf8.encode i.source).length

/-- Reads the digits of a `\u` escape, the four characters at the front. -/
def readUnicode : List Char → Option (Item × List Char)
  | a :: b :: c :: d :: rest =>
    match Hex.four? a b c d with
    | some u => some (⟨['\\', 'u', a, b, c, d], .unit u⟩, rest)
    | none => none
  | _ => none

/-- Reads what follows a backslash.  A backslash with nothing after it, or
without its digits, is itself at fault; an unknown letter after it is at fault
one byte later. -/
def readEscape : List Char → Except Nat (Item × List Char)
  | [] => .error 0
  | 'u' :: rest =>
    match readUnicode rest with
    | some answer => .ok answer
    | none => .error 0
  | e :: rest =>
    match escaped? e with
    | some c => .ok (⟨['\\', e], .char c⟩, rest)
    | none => .error 1

/-- Reads the item that begins with `c`.  A backslash begins an escape even where
it is the border.  A fault is placed from the first byte of the item on. -/
def readItem (border : UInt8) (c : Char) (rest : List Char) : Except Nat (Item × List Char) :=
  if c = '\\' then readEscape rest
  else if c.toNat = border.toNat ∨ c < ' ' then .error 0
  else .ok (⟨[c], .char c⟩, rest)

private theorem source_of_readUnicode {cs rest : List Char} {i : Item}
    (h : readUnicode cs = some (i, rest)) :
    ∃ more, i.source = '\\' :: more ∧ more ++ rest = 'u' :: cs := by
  unfold readUnicode at h
  split at h
  · split at h
    · cases h; exact ⟨_, rfl, rfl⟩
    · cases h
  · cases h

private theorem source_of_readEscape {cs rest : List Char} {i : Item}
    (h : readEscape cs = .ok (i, rest)) :
    ∃ more, i.source = '\\' :: more ∧ more ++ rest = cs := by
  unfold readEscape at h
  split at h
  · cases h
  · split at h
    · rename_i answer hu
      cases h
      exact source_of_readUnicode hu
    · cases h
  · split at h
    · cases h; exact ⟨_, rfl, rfl⟩
    · cases h

/-- An item is read from the front of the characters: it is written with the first
of them and some that follow, and leaves the others. -/
theorem source_of_readItem {border : UInt8} {c : Char} {cs rest : List Char} {i : Item}
    (h : readItem border c cs = .ok (i, rest)) :
    ∃ more, i.source = c :: more ∧ more ++ rest = cs := by
  unfold readItem at h
  split at h
  · rename_i hc
    rw [hc]
    exact source_of_readEscape h
  · split at h
    · cases h
    · cases h; exact ⟨_, rfl, rfl⟩

/-- An item takes at least one character. -/
theorem length_readItem_le {border : UInt8} {c : Char} {cs rest : List Char} {i : Item}
    (h : readItem border c cs = .ok (i, rest)) : rest.length ≤ cs.length := by
  obtain ⟨more, -, rfl⟩ := source_of_readItem h
  simp

/-- Reads on in a body at an offset.  The items already read stand in reverse. -/
def readItemsFrom (border : UInt8) (offset : Nat) (done : List Item) (cs : List Char) :
    Except Nat (List Item) :=
  match cs with
  | [] => .ok done.reverse
  | c :: rest =>
    match _h : readItem border c rest with
    | .ok (i, after) => readItemsFrom border (offset + i.width) (i :: done) after
    | .error n => .error (offset + n)
termination_by cs.length
decreasing_by exact Nat.lt_succ_of_le (length_readItem_le _h)

/-- The items of a body, or the offset of its first fault.  Offsets count from
the border in front of the body. -/
def readItems (border : UInt8) (body : List Char) : Except Nat (List Item) :=
  readItemsFrom border 1 [] body

/-- The characters of values, behind those already there, which stand in reverse.
A high surrogate joins a low one that comes next. -/
def joinOnto (done : List Char) : List Value → List Char
  | [] => done.reverse
  | .char c :: vs => joinOnto (c :: done) vs
  | .unit u :: .unit w :: vs =>
    if Utf16.isHigh u && Utf16.isLow w then joinOnto (Utf16.join u w :: done) vs
    else joinOnto (Utf16.single u :: done) (.unit w :: vs)
  | .unit u :: vs => joinOnto (Utf16.single u :: done) vs

/-- The characters that a list of values stands for. -/
def join (vs : List Value) : List Char := joinOnto [] vs

end PathFormula.Quoted
