import Mathlib.Data.List.TakeWhile
import PathFormula.Reference

/-!
# Reading in place

A recogniser is set to work somewhere in a formula, with a part of it already passed.  What
it reads does not depend on this part, it only stands further on, and so do its faults.  The
one thing that is ever looked for behind the cursor is a run of backslashes, and no run goes
past a byte that is none: behind a quote, or behind the root of a reference, nothing in
front of it counts.

## Main definitions

* `Cursor.behind passed c` — the cursor `c` as it stands with the bytes `passed` in front.
* `Cursor.Outcome.behind passed` — an outcome, likewise.
* `Cursor.IsShield p` — no run of backslashes goes past the bytes `p`.

## Main results

* `readNumber_behind`, `readString_behind`, `readReference_behind` — **what is read in
  place is what is read from the front.**
-/

namespace PathFormula.Cursor

open Literal

/-- The cursor as it stands when the bytes `passed`, nearest first, are put in front. -/
def behind (passed : List UInt8) (c : Cursor) : Cursor := ⟨c.passed ++ passed, c.rest⟩

/-- The outcome as it is when the bytes `passed` are put in front. -/
def Outcome.behind {α : Type} (passed : List UInt8) : Outcome α → Outcome α
  | .ok a c => .ok a (c.behind passed)
  | .error fault c => .error (fault.shift passed.length) (c.behind passed)

variable {p passed rest : List UInt8} {b delimiter : UInt8}

@[simp] theorem symbolFault_behind (c : Cursor) :
    (c.behind passed).symbolFault = c.symbolFault.shift passed.length := by
  simp [symbolFault, behind, position, current, Fault.shift, Nat.add_comm]

@[simp] theorem endFault_behind (c : Cursor) :
    (c.behind passed).endFault = c.endFault.shift passed.length := by
  simp only [endFault, behind, position, List.length_append, Fault.shift, Fault.endOfInput.injEq]
  omega

theorem Outcome.error_behind {α : Type} {fault fault' : Fault} (c : Cursor)
    (h : fault' = fault.shift passed.length) :
    (.error fault' (c.behind passed) : Outcome α) = Outcome.behind passed (.error fault c) := by
  rw [h]
  rfl

/-! ### Numbers -/

theorem endNumber_behind (c : Cursor) (last : State) :
    (c.behind passed).endNumber last = (c.endNumber last).behind passed := by
  unfold endNumber
  split
  · rfl
  · rw [symbolFault_behind]
    rfl

theorem stopNumber_behind (strict : Bool) (c : Cursor) (last : State) :
    stopNumber strict (c.behind passed) last = (stopNumber strict c last).behind passed := by
  unfold stopNumber
  split
  · rw [symbolFault_behind]
    rfl
  · exact endNumber_behind c last

theorem readNumberFrom_behind (strict : Bool) (last : State) (p rest : List UInt8) :
    readNumberFrom strict last (p ++ passed) rest =
      (readNumberFrom strict last p rest).behind passed := by
  fun_induction readNumberFrom strict last p rest with
  | case1 last p => exact endNumber_behind ⟨p, []⟩ last
  | case2 last p b rest hclass =>
    rw [readNumberFrom, hclass]
    exact Outcome.error_behind ⟨p, b :: rest⟩ (symbolFault_behind ⟨p, b :: rest⟩)
  | case3 last p b rest k hclass hmove =>
    rw [readNumberFrom, hclass]
    simp only [hmove]
    rfl
  | case4 last p b rest k hclass hmove =>
    rw [readNumberFrom, hclass]
    simp only [hmove]
    exact stopNumber_behind strict ⟨p, b :: rest⟩ last
  | case5 last p b rest k hclass state hmove hnumeric ih =>
    rw [readNumberFrom, hclass]
    simp only [hmove, if_pos hnumeric]
    exact ih
  | case6 last p b rest k hclass state hmove hnumeric =>
    rw [readNumberFrom, hclass]
    simp only [hmove, if_neg hnumeric]
    exact stopNumber_behind strict ⟨p, b :: rest⟩ last

/-- A number is read in place as it is from the front. -/
theorem readNumber_behind (resume : Option State) (passed rest : List UInt8) :
    readNumber resume ⟨passed, rest⟩ = (readNumber resume (ofBytes rest)).behind passed :=
  readNumberFrom_behind _ _ [] rest

/-! ### Backslashes -/

/-- Among the bytes there is one that is no backslash, so that a run of backslashes that
begins in them ends in them. -/
def IsShield (p : List UInt8) : Prop := ∃ b ∈ p, b ≠ Byte.backslash

theorem IsShield.cons (b : UInt8) (h : IsShield p) : IsShield (b :: p) := by
  obtain ⟨a, ha, hne⟩ := h
  exact ⟨a, List.mem_cons_of_mem b ha, hne⟩

theorem isShield_singleton (hb : b ≠ Byte.backslash) : IsShield [b] :=
  ⟨b, List.mem_singleton_self b, hb⟩

/-- Backslashes in front of a shield do not count. -/
theorem isEscapedAfter_append (h : IsShield p) (passed : List UInt8) :
    isEscapedAfter (p ++ passed) = isEscapedAfter p := by
  obtain ⟨a, ha, hne⟩ := h
  have htake : (p.takeWhile (· == Byte.backslash)).length ≠ p.length := by
    intro hlength
    have hall := (List.takeWhile_prefix (l := p) (· == Byte.backslash)).eq_of_length hlength
    rw [List.takeWhile_eq_self_iff] at hall
    exact hne (by simpa using hall a ha)
  rw [isEscapedAfter, isEscapedAfter, List.takeWhile_append, if_neg htake]

theorem seekFrom_behind (set : List UInt8) (h : IsShield p) (rest : List UInt8) :
    seekFrom set (p ++ passed) rest = (seekFrom set p rest).behind passed := by
  fun_induction seekFrom set p rest with
  | case1 p => rfl
  | case2 p b rest hb => rw [seekFrom, isEscapedAfter_append h, if_pos hb]; rfl
  | case3 p b rest hb ih =>
    rw [seekFrom, isEscapedAfter_append h, if_neg hb]
    exact ih (h.cons b)

/-! ### Strings -/

theorem stringFault_behind (h : IsShield p) (rest : List UInt8) :
    stringFault ⟨p ++ passed, rest⟩ delimiter =
      (stringFault ⟨p, rest⟩ delimiter).shift passed.length := by
  have hseek : seek [delimiter] ⟨p ++ passed, rest⟩ = (seek [delimiter] ⟨p, rest⟩).behind passed :=
    seekFrom_behind [delimiter] h rest
  unfold stringFault
  rw [hseek]
  change (if (seek [delimiter] ⟨p, rest⟩).isAtEnd then _ else _) = _
  split
  · exact endFault_behind ⟨p, rest⟩
  · exact symbolFault_behind ⟨p, rest⟩

theorem readStringFrom_behind (delimiter : UInt8) (last : State) (h : IsShield p)
    (rest : List UInt8) : readStringFrom delimiter last (p ++ passed) rest =
      (readStringFrom delimiter last p rest).behind passed := by
  fun_induction readStringFrom delimiter last p rest with
  | case1 last p => exact Outcome.error_behind ⟨p, []⟩ (endFault_behind ⟨p, []⟩)
  | case2 last p b rest state hmove ih =>
    rw [readStringFrom, hmove]
    exact ih (h.cons b)
  | case3 last p b rest hmove =>
    rw [readStringFrom, hmove]
    rfl
  | case4 last p b rest hmove =>
    rw [readStringFrom, hmove]
    exact Outcome.error_behind ⟨p, b :: rest⟩ (stringFault_behind h _)

theorem ne_backslash_of_isQuote (hb : Byte.isQuote b) : b ≠ Byte.backslash := by
  rintro rfl
  cases hb

/-- A string is read in place as it is from the front, since its opening quote is a
shield. -/
theorem readString_behind (hb : Byte.isQuote b) (passed rest : List UInt8) :
    readString b none ⟨passed, b :: rest⟩ =
      (readString b none (ofBytes (b :: rest))).behind passed := by
  have hstart := stringMove_start hb
  have hshield := isShield_singleton (ne_backslash_of_isQuote hb)
  change readStringFrom b .start passed (b :: rest) =
    (readStringFrom b .start [] (b :: rest)).behind passed
  rw [readStringFrom, readStringFrom, hstart]
  exact readStringFrom_behind b .string hshield rest

/-! ### References -/

theorem readItemsFrom_behind (nest : List Bracket) (key : Option (UInt8 × State))
    (h : IsShield p) (rest : List UInt8) : readItemsFrom nest key (p ++ passed) rest =
      (readItemsFrom nest key p rest).behind passed := by
  fun_induction readItemsFrom nest key p rest with
  | case1 nest key p hend =>
    rw [readItemsFrom, if_pos hend]
    rfl
  | case2 nest key p hend =>
    rw [readItemsFrom, if_neg hend]
    exact Outcome.error_behind ⟨p, []⟩ (endFault_behind ⟨p, []⟩)
  | case3 nest p b rest delimiter last state hmove ih =>
    rw [readItemsFrom]
    simp only [hmove]
    exact ih (h.cons b)
  | case4 nest p b rest delimiter last hmove ih =>
    rw [readItemsFrom]
    simp only [hmove]
    exact ih (h.cons b)
  | case5 nest p b rest delimiter last hmove =>
    rw [readItemsFrom]
    simp only [hmove]
    exact Outcome.error_behind ⟨p, b :: rest⟩ (stringFault_behind h _)
  | case6 nest p b rest hrole ih =>
    rw [readItemsFrom]
    simp only [hrole]
    exact ih (h.cons b)
  | case7 nest p b rest kind hrole ih =>
    rw [readItemsFrom]
    simp only [hrole]
    exact ih (h.cons b)
  | case8 p b rest kind hrole =>
    rw [readItemsFrom]
    simp only [hrole]
    rfl
  | case9 p b rest innermost outer hrole ih =>
    rw [readItemsFrom]
    simp only [hrole, if_true]
    exact ih (h.cons b)
  | case10 p b rest kind hrole innermost outer hne =>
    rw [readItemsFrom]
    simp only [hrole, if_neg hne]
    refine Outcome.error_behind ⟨p, b :: rest⟩ ?_
    rw [List.length_append, Nat.add_comm]
    rfl
  | case11 nest p b rest hrole ih =>
    rw [readItemsFrom]
    simp only [hrole]
    exact ih (h.cons b)
  | case12 nest p b rest hrole hnest =>
    rw [readItemsFrom]
    simp only [hrole, if_pos hnest]
    rfl
  | case13 nest p b rest hrole hnest ih =>
    rw [readItemsFrom]
    simp only [hrole, if_neg hnest]
    exact ih (h.cons b)

/-- A reference is read in place as it is from the front, since its root is a shield. -/
theorem readReference_behind (hb : b = '$'.toUInt8 ∨ b = '@'.toUInt8)
    (passed rest : List UInt8) : readReference ⟨passed, b :: rest⟩ =
      (readReference (ofBytes (b :: rest))).behind passed := by
  have hrole : Byte.isSign b = false ∧ Role.ofByte b = .reference ∧ b ≠ Byte.backslash := by
    rcases hb with rfl | rfl <;> decide
  obtain ⟨hsign, hrole, hne⟩ := hrole
  have hitems (passed : List UInt8) : readReference ⟨passed, b :: rest⟩ =
      readItemsFrom [] none (b :: passed) rest := by
    simp only [readReference, current, List.head?_cons, hsign, hrole, Role.beginsItem,
      Bool.false_eq_true, if_false, if_true, readItems, readItemsFrom]
  rw [ofBytes, hitems passed, hitems []]
  exact readItemsFrom_behind [] none (isShield_singleton hne) rest

end PathFormula.Cursor
