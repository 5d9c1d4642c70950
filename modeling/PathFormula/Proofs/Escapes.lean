import Mathlib.Algebra.Ring.Parity
import Mathlib.Data.List.DropRight
import Mathlib.Data.Nat.Find
import PathFormula.Cursor

/-!
# Escaped bytes

Whether a byte is escaped is counted back from it: it is if an odd number of
backslashes ends just before it.  Where a cursor is sent for some bytes, it stops
at the first one that is not escaped, also if the backslashes in front of this
byte begin before the place the cursor set out from.

Counting back is the same as passing over the bytes from left to right and over each
backslash together with the byte behind it, as long as the pass does not begin in the
middle of a run of backslashes.

## Main definitions

* `backslashesBefore input i` — how many backslashes end just before an offset.
* `UnescapedAt set input i` — a byte of the set stands at an offset, unescaped.
* `FirstUnescaped set input start i` — and no other does between `start` and it.
* `firstUnskipped? set bytes` — how far a pass from left to right comes.

## Main results

* `unescapedAt_length_iff`, `unescapedAt_length_add_iff` — the same, said of what a
  cursor has passed.
* `seek_of_firstUnescaped`, `seek_of_not_unescapedAt` — where a cursor stops that
  is sent for the bytes of a set.
* `found?_seekFrom` — a pass from left to right comes to the same byte.
* `seek_finds_first` — **a cursor finds the first unescaped byte it is sent for.**
-/

namespace PathFormula.Cursor

/-- The number of backslashes in a row that end just before an offset. -/
def backslashesBefore (input : List UInt8) (i : Nat) : Nat :=
  ((input.take i).rtakeWhile (· == Byte.backslash)).length

/-- A byte of the set stands at an offset, and it is not escaped. -/
def UnescapedAt (set input : List UInt8) (i : Nat) : Prop :=
  (∃ b ∈ set, input[i]? = some b) ∧ Even (backslashesBefore input i)

instance (set input : List UInt8) (i : Nat) : Decidable (UnescapedAt set input i) :=
  inferInstanceAs (Decidable (_ ∧ _))

/-- The offset `i` is the first from `start` on at which an unescaped byte of the set
stands. -/
structure FirstUnescaped (set input : List UInt8) (start i : Nat) : Prop where
  start_le : start ≤ i
  unescapedAt : UnescapedAt set input i
  not_unescapedAt : ∀ j, start ≤ j → j < i → ¬ UnescapedAt set input j

variable {set bytes : List UInt8} {start i j : Nat}

theorem UnescapedAt.lt_length (h : UnescapedAt set bytes i) : i < bytes.length := by
  obtain ⟨⟨b, -, hb⟩, -⟩ := h
  obtain ⟨hi, -⟩ := List.getElem?_eq_some_iff.mp hb
  exact hi

theorem FirstUnescaped.unique (hi : FirstUnescaped set bytes start i)
    (hj : FirstUnescaped set bytes start j) : i = j := by
  rcases Nat.lt_trichotomy i j with hlt | heq | hlt
  · exact absurd hi.unescapedAt (hj.not_unescapedAt i hi.start_le hlt)
  · exact heq
  · exact absurd hj.unescapedAt (hi.not_unescapedAt j hj.start_le hlt)

/-- Nothing is lost by setting out later, as long as nothing is passed over. -/
theorem FirstUnescaped.mono {start' : Nat} (h : FirstUnescaped set bytes start i)
    (hstart : start ≤ start') (hi : start' ≤ i) : FirstUnescaped set bytes start' i where
  start_le := hi
  unescapedAt := h.unescapedAt
  not_unescapedAt j hj := h.not_unescapedAt j (Nat.le_trans hstart hj)

/-- If an unescaped byte of the set stands anywhere from `start` on, there is a first one. -/
theorem UnescapedAt.exists_firstUnescaped (h : UnescapedAt set bytes j) (hj : start ≤ j) :
    ∃ i, FirstUnescaped set bytes start i := by
  have hex : ∃ i, start ≤ i ∧ UnescapedAt set bytes i := ⟨j, hj, h⟩
  obtain ⟨hle, hfind⟩ := Nat.find_spec hex
  exact ⟨Nat.find hex, hle, hfind, fun k hk hlt hat => Nat.find_min hex hlt ⟨hk, hat⟩⟩

/-! ### What a cursor has passed -/

/-- A byte is escaped if it follows an unescaped backslash. -/
theorem isEscapedAfter_cons (b : UInt8) (passed : List UInt8) :
    isEscapedAfter (b :: passed) = (b == Byte.backslash && !isEscapedAfter passed) := by
  unfold isEscapedAfter
  by_cases hb : b = Byte.backslash
  · subst hb
    rw [List.takeWhile_cons_of_pos (by simp), List.length_cons, beq_self_eq_true, Bool.true_and]
    rcases Nat.mod_two_eq_zero_or_one
      (passed.takeWhile (· == Byte.backslash)).length with h | h <;> simp [Nat.add_mod, h]
  · simp [hb]

theorem backslashesBefore_length (passed rest : List UInt8) :
    backslashesBefore (passed.reverse ++ rest) passed.length =
      (passed.takeWhile (· == Byte.backslash)).length := by
  have htake : (passed.reverse ++ rest).take passed.length = passed.reverse := by
    rw [← List.length_reverse, List.take_left]
  rw [backslashesBefore, htake, List.rtakeWhile, List.reverse_reverse, List.length_reverse]

/-- Just behind the bytes `passed`, a byte is not escaped if they say so. -/
theorem unescapedAt_length_iff {passed rest : List UInt8} :
    UnescapedAt set (passed.reverse ++ rest) passed.length ↔
      (∃ b ∈ set, rest.head? = some b) ∧ isEscapedAfter passed = false := by
  have hget : (passed.reverse ++ rest)[passed.length]? = rest.head? := by
    rw [← List.length_reverse, List.getElem?_append_right (Nat.le_refl _), Nat.sub_self,
      List.head?_eq_getElem?]
  rw [UnescapedAt, hget, backslashesBefore_length, isEscapedAfter, beq_eq_false_iff_ne,
    ← Nat.not_odd_iff_even, Nat.odd_iff]

/-- The same for a byte that is still some way ahead. -/
theorem unescapedAt_length_add_iff {passed before after : List UInt8} {b : UInt8} :
    UnescapedAt set (passed.reverse ++ (before ++ b :: after)) (passed.length + before.length) ↔
      b ∈ set ∧ isEscapedAfter (before.reverse ++ passed) = false := by
  have hinput : passed.reverse ++ (before ++ b :: after) =
      (before.reverse ++ passed).reverse ++ (b :: after) := by simp
  have hlength : passed.length + before.length = (before.reverse ++ passed).length := by
    simp [Nat.add_comm]
  rw [hinput, hlength, unescapedAt_length_iff]
  simp

/-- An unescaped byte ahead of the bytes `passed` stands somewhere in the rest. -/
theorem UnescapedAt.exists_append {passed rest : List UInt8}
    (h : UnescapedAt set (passed.reverse ++ rest) i) (hle : passed.length ≤ i) :
    ∃ before b after, rest = before ++ b :: after ∧ i = passed.length + before.length ∧
      b ∈ set ∧ isEscapedAfter (before.reverse ++ passed) = false := by
  have hlt := h.lt_length
  rw [List.length_append, List.length_reverse] at hlt
  have hk : i - passed.length < rest.length := by omega
  obtain ⟨before, b, after, rfl, hbefore⟩ : ∃ before b after, rest = before ++ b :: after ∧
      before.length = i - passed.length := by
    refine ⟨rest.take (i - passed.length), rest[i - passed.length],
      rest.drop (i - passed.length + 1), ?_, by simp; omega⟩
    rw [← List.drop_eq_getElem_cons hk, List.take_append_drop]
  obtain rfl : i = passed.length + before.length := by omega
  obtain ⟨hb, hescaped⟩ := unescapedAt_length_add_iff.mp h
  exact ⟨before, b, after, rfl, rfl, hb, hescaped⟩

/-- A cursor goes forward over the bytes that come. -/
theorem forward_append (bs passed rest : List UInt8) :
    forward bs.length ⟨passed, bs ++ rest⟩ = ⟨bs.reverse ++ passed, rest⟩ := by
  rw [forward]
  induction bs generalizing passed with
  | nil => cases rest <;> rfl
  | cons b bs ih =>
    rw [List.length_cons, List.cons_append, forwardFrom, ih]
    simp

/-- The cursor at an offset has passed the bytes in front of it. -/
theorem moveTo_length {c : Cursor} {passed : List UInt8} (rest : List UInt8)
    (h : c.input = passed.reverse ++ rest) : c.moveTo passed.length = ⟨passed, rest⟩ := by
  rw [moveTo, h, ofBytes, ← List.length_reverse, forward_append]
  simp

theorem position_forwardFrom (n : Nat) (passed rest : List UInt8) :
    (forwardFrom n passed rest).position = passed.length + min n rest.length := by
  fun_induction forwardFrom n passed rest with
  | case1 => simp [position]
  | case2 => simp [position]
  | case3 n passed b rest ih =>
    rw [ih, List.length_cons, List.length_cons]
    omega

/-- A cursor that is sent forward stops at the end. -/
theorem position_forward (n : Nat) (c : Cursor) :
    (c.forward n).position = min (c.position + n) c.input.length := by
  rw [forward, position_forwardFrom, position, input, List.length_append, List.length_reverse]
  omega

/-- A cursor that is sent to an offset of its input comes there. -/
theorem position_moveTo (offset : Nat) (c : Cursor) :
    (c.moveTo offset).position = min offset c.input.length := by
  rw [moveTo, position_forward, position_ofBytes, input_ofBytes, Nat.zero_add]

/-- The byte at an offset behind the cursor. -/
theorem getElem?_position_add (c : Cursor) (n : Nat) : c.input[c.position + n]? = c.rest[n]? := by
  rw [input, position, List.getElem?_append_right (by simp), List.length_reverse,
    Nat.add_sub_cancel_left]

/-- The byte at the position of the cursor. -/
theorem getElem?_position (c : Cursor) : c.input[c.position]? = c.current := by
  rw [current, List.head?_eq_getElem?]
  exact c.getElem?_position_add 0

/-! ### Sending a cursor -/

/-- A cursor that is sent for a byte stops at the first one that is not escaped. -/
theorem seekFrom_of_firstUnescaped {passed rest : List UInt8}
    (h : FirstUnescaped set (passed.reverse ++ rest) passed.length i) :
    seekFrom set passed rest = moveTo i ⟨passed, rest⟩ := by
  fun_induction seekFrom set passed rest with
  | case1 passed =>
    have hlt := h.unescapedAt.lt_length
    have hle := h.start_le
    simp at hlt
    omega
  | case2 passed b rest hb =>
    have hhere : UnescapedAt set (passed.reverse ++ b :: rest) passed.length := by
      rw [unescapedAt_length_iff]
      simpa using hb
    obtain rfl : i = passed.length :=
      h.unique ⟨Nat.le_refl _, hhere, fun j hj hlt => absurd hlt (by omega)⟩
    exact (moveTo_length (c := ⟨passed, b :: rest⟩) _ rfl).symm
  | case3 passed b rest hb ih =>
    have hne : i ≠ passed.length := by
      rintro rfl
      have hhere := h.unescapedAt
      rw [unescapedAt_length_iff] at hhere
      simp [hhere.2] at hb
      simp [hb] at hhere
    have hinput : passed.reverse ++ b :: rest = (b :: passed).reverse ++ rest := by simp
    have hstart : (b :: passed).length ≤ i := by
      have := h.start_le
      rw [List.length_cons]
      omega
    rw [hinput] at h
    rw [ih (h.mono (by simp) hstart), moveTo, moveTo, input_cons]

/-- A cursor that is sent for a byte and finds none stops at the end. -/
theorem seekFrom_of_not_unescapedAt {passed rest : List UInt8}
    (h : ∀ j, passed.length ≤ j → ¬ UnescapedAt set (passed.reverse ++ rest) j) :
    seekFrom set passed rest = ⟨rest.reverse ++ passed, []⟩ := by
  fun_induction seekFrom set passed rest with
  | case1 passed => simp
  | case2 passed b rest hb =>
    refine absurd (unescapedAt_length_iff.mpr ?_) (h passed.length (Nat.le_refl _))
    simpa using hb
  | case3 passed b rest hb ih =>
    rw [ih]
    · simp
    · intro j hj
      have hinput : (b :: passed).reverse ++ rest = passed.reverse ++ b :: rest := by simp
      rw [hinput]
      exact h j (Nat.le_of_succ_le hj)

/-- A cursor stops at the first unescaped byte it is sent for. -/
theorem seek_of_firstUnescaped {c : Cursor} (h : FirstUnescaped set c.input c.position i) :
    c.seek set = c.moveTo i :=
  seekFrom_of_firstUnescaped h

/-- A cursor that finds none of the bytes it is sent for stops at the end. -/
theorem seek_of_not_unescapedAt {c : Cursor}
    (h : ∀ j, c.position ≤ j → ¬ UnescapedAt set c.input j) :
    c.seek set = c.moveTo c.input.length := by
  have hend : (c.rest.reverse ++ c.passed).length = c.input.length := by
    simp [input, Nat.add_comm]
  rw [← hend, moveTo_length [] (by simp [input])]
  exact seekFrom_of_not_unescapedAt h

/-- A cursor comes to the end exactly if it finds none of the bytes it is sent for. -/
theorem isAtEnd_seek_of_firstUnescaped {c : Cursor}
    (h : FirstUnescaped set c.input c.position i) : (c.seek set).isAtEnd = false := by
  have hlt := h.unescapedAt.lt_length
  have hlength : (c.input.take i).reverse.length = i := by simp; omega
  rw [seek_of_firstUnescaped h, ← hlength,
    moveTo_length (c.input.drop i) (by simp)]
  simpa [isAtEnd] using hlt

/-- What a cursor finds is the first unescaped byte of the set. -/
theorem found?_seek_of_firstUnescaped {c : Cursor}
    (h : FirstUnescaped set c.input c.position i) :
    (c.seek set).found? = some i ∧ (c.seek set).position = i := by
  have hposition : (c.seek set).position = i := by
    rw [seek_of_firstUnescaped h, position_moveTo,
      Nat.min_eq_left (Nat.le_of_lt h.unescapedAt.lt_length)]
  refine ⟨?_, hposition⟩
  rw [found?, isAtEnd_seek_of_firstUnescaped h, hposition]
  rfl

/-- Where there is none, a cursor finds nothing and stands at the end. -/
theorem found?_seek_of_not_unescapedAt {c : Cursor}
    (h : ∀ j, c.position ≤ j → ¬ UnescapedAt set c.input j) :
    (c.seek set).found? = none ∧ (c.seek set).position = c.input.length := by
  constructor
  · rw [seek, seekFrom_of_not_unescapedAt h]
    rfl
  · rw [seek_of_not_unescapedAt h, position_moveTo, Nat.min_self]

/-! ### One pass from left to right -/

/-- How many bytes stand in front of the first one of the set, where the byte behind a
backslash is passed over together with it. -/
def firstUnskipped? (set : List UInt8) : List UInt8 → Option Nat
  | [] => none
  | b :: rest =>
    if b = Byte.backslash then
      match rest with
      | [] => none
      | _ :: more => (firstUnskipped? set more).map (· + 2)
    else if b ∈ set then some 0
    else (firstUnskipped? set rest).map (· + 1)

/-- Behind any other byte than a backslash nothing is escaped. -/
theorem isEscapedAfter_eq_false {passed : List UInt8}
    (h : passed.head? ≠ some Byte.backslash) : isEscapedAfter passed = false := by
  cases passed with
  | nil => rfl
  | cons b passed =>
    rw [isEscapedAfter_cons, beq_eq_false_iff_ne.mpr (by simpa using h), Bool.false_and]

/-- Bytes that are passed over count like those passed before. -/
theorem map_add_map_add (n k : Nat) (found : Option Nat) :
    (found.map (· + k)).map (n + ·) = found.map (n + k + ·) := by
  rw [Option.map_map]
  congr 1
  funext m
  rw [Function.comp_apply, Nat.add_assoc, Nat.add_comm k]

/-- The pass comes to the same byte as a cursor, which looks back at every byte of the set. -/
theorem found?_seekFrom {passed rest : List UInt8} (hset : Byte.backslash ∉ set)
    (hpassed : isEscapedAfter passed = false) :
    (seekFrom set passed rest).found? = (firstUnskipped? set rest).map (passed.length + ·) := by
  fun_induction firstUnskipped? set rest generalizing passed with
  | case1 => rfl
  | case2 =>
    rw [seekFrom, if_neg (by simp [hset])]
    rfl
  | case3 next more ih =>
    have hbackslash : isEscapedAfter (Byte.backslash :: passed) = true := by
      rw [isEscapedAfter_cons, hpassed]
      rfl
    -- behind the byte that is passed over, nothing is escaped, whatever byte it is
    have hnext : isEscapedAfter (next :: Byte.backslash :: passed) = false := by
      rw [isEscapedAfter_cons, hbackslash, Bool.not_true, Bool.and_false]
    rw [seekFrom, if_neg (by simp [hset]), seekFrom, if_neg (by simp [hbackslash]), ih hnext,
      map_add_map_add]
    rfl
  | case4 b rest hb hmem =>
    rw [seekFrom, if_pos (by simp [hmem, hpassed])]
    rfl
  | case5 b rest hb hmem ih =>
    have hrest : isEscapedAfter (b :: passed) = false :=
      isEscapedAfter_eq_false (by simpa using hb)
    rw [seekFrom, if_neg (by simp [hmem]), ih hrest, map_add_map_add]
    rfl

/-- **A cursor finds the first unescaped byte it is sent for.**

It stops at the least offset from its position on where a byte of the set stands behind an even
number of backslashes, wherever these begin, and if there is none, it finds nothing and stops
at the end.  Where it does not set out behind a backslash, this is the byte that a single pass
from left to right comes to. -/
theorem seek_finds_first (c : Cursor) (set : List UInt8) :
    (∀ i, (c.seek set).found? = some i ∧ (c.seek set).position = i ↔
        FirstUnescaped set c.input c.position i) ∧
      ((∀ i, ¬ FirstUnescaped set c.input c.position i) →
        (c.seek set).found? = none ∧ (c.seek set).position = c.input.length) ∧
      (c.passed.head? ≠ some Byte.backslash → Byte.backslash ∉ set →
        (c.seek set).found? = (firstUnskipped? set c.rest).map (c.position + ·)) := by
  have hnone : (∀ i, ¬ FirstUnescaped set c.input c.position i) →
      (c.seek set).found? = none ∧ (c.seek set).position = c.input.length := by
    intro h
    refine found?_seek_of_not_unescapedAt fun j hj hat => ?_
    obtain ⟨i, hi⟩ := hat.exists_firstUnescaped hj
    exact h i hi
  refine ⟨fun i => ⟨?_, found?_seek_of_firstUnescaped⟩, hnone, fun hpassed hset => ?_⟩
  · rintro ⟨hfound, hposition⟩
    by_cases hex : ∃ j, FirstUnescaped set c.input c.position j
    · obtain ⟨j, hj⟩ := hex
      obtain rfl : j = i := (found?_seek_of_firstUnescaped hj).2.symm.trans hposition
      exact hj
    · rw [(hnone (not_exists.mp hex)).1] at hfound
      cases hfound
  · exact found?_seekFrom hset (isEscapedAfter_eq_false hpassed)

/-- A run of backslashes in which the cursor sets out, one that hides the only quote there is,
and a quote behind two runs. -/
theorem seek_finds_first_quote :
    FirstUnescaped [Byte.doubleQuote] [Byte.backslash, Byte.doubleQuote, Byte.doubleQuote] 1 2 ∧
      (seek [Byte.doubleQuote] ⟨[], [Byte.backslash, Byte.doubleQuote]⟩).position = 2 ∧
      (seek [Byte.doubleQuote] ⟨[0x61], [Byte.backslash, Byte.doubleQuote, Byte.backslash,
        Byte.backslash, Byte.doubleQuote]⟩).found? = some 5 := by
  have hhidden : ∀ i < 2,
      ¬ UnescapedAt [Byte.doubleQuote] [Byte.backslash, Byte.doubleQuote] i := by decide
  refine ⟨?_, ?_, ?_⟩
  · exact ((seek_finds_first ⟨[Byte.backslash], [Byte.doubleQuote, Byte.doubleQuote]⟩ _).1 2).mp
      (by decide)
  · exact ((seek_finds_first ⟨[], [Byte.backslash, Byte.doubleQuote]⟩ _).2.1 fun i h =>
      hhidden i h.unescapedAt.lt_length h.unescapedAt).2
  · rw [(seek_finds_first _ _).2.2 (by decide) (by decide)]
    rfl

end PathFormula.Cursor
