import Mathlib.Order.Bounds.Basic
import PathFormula.Proofs.Escapes
import PathFormula.Proofs.Numerals

/-!
# The longest beginning of a number

A reading of a number goes on as long as some number begins with what it has taken, and it
never turns back.  So it ends behind the longest stretch that a number can begin with, and
it succeeds only if this stretch is a number itself: `1e` is refused, although `1` is a
number.  This holds of a fresh reading and of one that is resumed behind a part of the
number alike.  They differ only in the byte they let follow: any but a control byte if the
reading is fresh, and nothing but white space or a delimiter if it is resumed.

## Main definitions

* `Literal.IsLongestBeginning bytes n` — of the stretches at the front of `bytes` that a
  number can begin with, the longest has length `n`.
* `Literal.numberAfter s bs` — the state that bytes lead to by their classes in numbers.

## Main results

* `isLongestBeginning_of_feeds` — bytes that lead to a state which the next byte does not
  lead on from are the longest beginning.
* `readNumber_longest` — **a fresh reading takes the longest beginning of a number, and
  succeeds if it is one.**
* `readNumber_resumed` — **a resumed reading agrees with a fresh one.**
-/

namespace PathFormula

namespace Literal

variable {s t : State} {b : UInt8} {bs front after : List UInt8} {n : Nat}

/-- Of the stretches at the front of `bytes` that a number can begin with, the longest has
length `n`. -/
def IsLongestBeginning (bytes : List UInt8) (n : Nat) : Prop :=
  IsGreatest {k | k ≤ bytes.length ∧ BeginsNumber (bytes.take k)} n

/-- Bytes from the start to a state that the next byte does not lead on from are the longest
beginning of a number. -/
theorem isLongestBeginning_of_feeds (h : Feeds .start front t)
    (hstop : ∀ b ∈ after.head?, ∀ u, ¬ Feeds t [b] u) :
    IsLongestBeginning (front ++ after) front.length := by
  refine ⟨⟨by simp, ?_⟩, ?_⟩
  · rw [List.take_left]
    exact beginsNumber_iff_feeds.mpr ⟨t, h⟩
  · rintro k ⟨hk, hbegins⟩
    by_contra hlt
    -- otherwise the number would go on with the byte behind `front`
    obtain ⟨j, rfl⟩ : ∃ j, k = front.length + (j + 1) :=
      ⟨k - front.length - 1, by simp only [not_le] at hlt; omega⟩
    cases after with
    | nil =>
      rw [List.append_nil] at hk
      exact hlt hk
    | cons b after =>
      rw [List.take_length_add_append, List.take_succ_cons, List.append_cons] at hbegins
      obtain ⟨u, hu⟩ := beginsNumber_iff_feeds.mp hbegins
      obtain ⟨w, hw, -⟩ := hu.of_append
      obtain ⟨x, hx⟩ := (beginsNumber_append_iff h b).mp (beginsNumber_iff_feeds.mpr ⟨w, hw⟩)
      exact hstop b rfl x hx

/-- Bytes that lead from the start to a state are a number exactly if numbers are complete
in it. -/
theorem Feeds.isNumber_iff (h : Feeds .start bs t) : IsNumber bs ↔ t.endsNumber := by
  rw [isNumber_iff_feeds]
  constructor
  · rintro ⟨u, hu, hfeeds⟩
    rwa [h.unique hfeeds]
  · exact fun ht => ⟨t, ht, h⟩

/-! ### States by the bytes in front of them -/

/-- The state that bytes lead to by their classes in numbers, if each of them leads on. -/
def numberAfter : State → List UInt8 → Option State
  | s, [] => some s
  | s, b :: bs =>
    match (ByteClass.ofByte? .numeric b).map s.move with
    | some (.next t) => numberAfter t bs
    | _ => none

/-- A state of a number is reached from states of numbers only. -/
theorem State.isNumeric_of_move {c : ByteClass} (h : s.move c = .next t) (ht : t.isNumeric) :
    s.isNumeric := by
  cases s with
  | string | escape | unicode1 | unicode2 | unicode3 | unicode4 => cases c <;> cases h <;> cases ht
  | _ => rfl

/-- Bytes that lead to a state of a number lead there by states of numbers. -/
theorem feeds_of_numberAfter (h : numberAfter s bs = some t) (ht : t.isNumeric) :
    s.isNumeric ∧ Feeds s bs t := by
  induction bs generalizing s with
  | nil =>
    cases h
    exact ⟨ht, .nil t⟩
  | cons b bs ih =>
    rw [numberAfter] at h
    split at h
    next u hu =>
      obtain ⟨c, hb, hmove⟩ := Option.map_eq_some_iff.mp hu
      obtain ⟨hnumeric, hfeeds⟩ := ih h
      exact ⟨State.isNumeric_of_move hmove hnumeric, .cons hb hmove hnumeric hfeeds⟩
    next => cases h

end Literal

namespace Cursor

open Literal

variable {s t : State} {passed front after : List UInt8} {n : Nat}

/-- The cursor at an offset behind it has passed the bytes in front of this offset. -/
theorem moveTo_position_add (passed front after : List UInt8) :
    moveTo (position ⟨passed, front ++ after⟩ + front.length) ⟨passed, front ++ after⟩ =
      ⟨front.reverse ++ passed, after⟩ := by
  have hlength : position ⟨passed, front ++ after⟩ + front.length =
      (front.reverse ++ passed).length := by simp [position, Nat.add_comm]
  rw [hlength, moveTo_length after (by simp [input])]

/-- **A fresh reading takes the longest beginning of a number, and succeeds if it is one.**

Of the stretches at the cursor that a number can begin with, let the longest have length
`n`.  If it is a number and no control byte but white space follows, the reading answers
the state in which the number is complete, and the cursor stands behind it.  In every other
case it is refused for the byte behind this stretch, or for the end of the input, and the
cursor stands there. -/
theorem readNumber_longest (c : Cursor) :
    ∃ n, IsLongestBeginning c.rest n ∧
      (∀ m : Numeral, m.bytes = c.rest.take n →
        (∀ b ∈ c.input[c.position + n]?, b < 0x20 → Byte.isSpace b) →
        c.readNumber none = .ok m.state (c.moveTo (c.position + n))) ∧
      (¬ (IsNumber (c.rest.take n) ∧
          ∀ b ∈ c.input[c.position + n]?, b < 0x20 → Byte.isSpace b) →
        c.readNumber none =
          .error (.invalidSymbol (c.position + n) c.input[c.position + n]?)
            (c.moveTo (c.position + n))) := by
  obtain ⟨passed, rest⟩ := c
  obtain ⟨front, after, t, rfl, hfront, hafter⟩ := exists_feeds_append .start rest
  have hread : readNumber none ⟨passed, front ++ after⟩ =
      readNumberFrom false t (front.reverse ++ passed) after :=
    readNumberFrom_of_feeds hfront false passed after
  have hnext : (input ⟨passed, front ++ after⟩)[position ⟨passed, front ++ after⟩ +
      front.length]? = after.head? := by
    rw [getElem?_position_add, List.getElem?_append_right le_rfl, Nat.sub_self,
      List.head?_eq_getElem?]
  refine ⟨front.length, isLongestBeginning_of_feeds hfront hafter, ?_, ?_⟩
  · intro m hm hcontrol
    rw [hnext] at hcontrol
    rw [List.take_left] at hm
    subst hm
    obtain rfl := hfront.unique m.feeds
    rw [hread, readNumberFrom_of_not_feeds false (hfront.isNumeric rfl) hafter,
      if_pos ⟨m.endsNumber_state, hcontrol⟩, moveTo_position_add]
  · intro hnot
    rw [hnext, List.take_left, hfront.isNumber_iff] at hnot
    change ¬ (t.endsNumber ∧ ∀ b ∈ after.head?, Byte.EndsNumber false b) at hnot
    rw [hread, readNumberFrom_of_not_feeds false (hfront.isNumeric rfl) hafter, if_neg hnot,
      moveTo_position_add, hnext, symbolFault]
    simp [position, current, Nat.add_comm]

/-- The letter of an exponent is not given back where no digit follows it. -/
example : (ofBytes ("1e+]".toList.map Char.toUInt8)).readNumber none =
    .error (.invalidSymbol 3 (some ']'.toUInt8))
      ((ofBytes ("1e+]".toList.map Char.toUInt8)).moveTo 3) :=
  rfl

/-- **A resumed reading agrees with a fresh one.**

Let the bytes `u` lead from the start to the state `s` of a number, and let `v` follow.  A
reading that is resumed behind `u` in this state answers what a fresh reading in front of
`u` does, but it succeeds only if white space, a delimiter or nothing follows the number.
It is refused where the bytes stop being the beginning of a number. -/
theorem readNumber_resumed {u : List UInt8} (h : numberAfter .start u = some s)
    (hs : s.isNumeric) (v : List UInt8) :
    (∀ t c', ((ofBytes (u ++ v)).moveTo u.length).readNumber (some s) = .ok t c' ↔
      (ofBytes (u ++ v)).readNumber none = .ok t c' ∧
        ∀ b ∈ c'.current, Byte.isSpace b ∨ Byte.isDelimiter b) ∧
    ∀ fault c', ((ofBytes (u ++ v)).moveTo u.length).readNumber (some s) = .error fault c' →
      ∃ n, IsLongestBeginning (u ++ v) n ∧ fault = .invalidSymbol n (u ++ v)[n]? ∧
        c' = (ofBytes (u ++ v)).moveTo n := by
  obtain ⟨-, hu⟩ := feeds_of_numberAfter h hs
  obtain ⟨front, after, t, rfl, hfront, hafter⟩ := exists_feeds_append s v
  have hall : Feeds .start (u ++ front) t := hu.trans hfront
  have ht : t.isNumeric := hall.isNumeric rfl
  -- both readings come to where no number goes on
  have hresumed : ((ofBytes (u ++ (front ++ after))).moveTo u.length).readNumber (some s) =
      readNumberFrom true t (u ++ front).reverse after := by
    have hseam : (ofBytes (u ++ (front ++ after))).moveTo u.length =
        ⟨u.reverse, front ++ after⟩ := by
      rw [← List.length_reverse, moveTo_length (front ++ after) (by simp)]
    rw [hseam, List.reverse_append]
    exact readNumberFrom_of_feeds hfront true u.reverse after
  have hfresh : (ofBytes (u ++ (front ++ after))).readNumber none =
      readNumberFrom false t (u ++ front).reverse after := by
    rw [← List.append_assoc, ← List.append_nil (u ++ front).reverse]
    exact readNumberFrom_of_feeds hall false [] after
  rw [hresumed, hfresh, readNumberFrom_of_not_feeds true ht hafter,
    readNumberFrom_of_not_feeds false ht hafter]
  constructor
  · intro t' c'
    constructor
    · intro hok
      split_ifs at hok with hend
      obtain ⟨rfl, rfl⟩ := EStateM.Result.ok.inj hok
      rw [if_pos ⟨hend.1, fun b hb => (hend.2 b hb).of_true false⟩]
      exact ⟨rfl, hend.2⟩
    · rintro ⟨hok, hfollow⟩
      split_ifs at hok with hend
      obtain ⟨rfl, rfl⟩ := EStateM.Result.ok.inj hok
      rw [if_pos ⟨hend.1, hfollow⟩]
  · intro fault c' herror
    split_ifs at herror with hend
    obtain ⟨rfl, rfl⟩ := EStateM.Result.error.inj herror
    refine ⟨(u ++ front).length, ?_, ?_, ?_⟩
    · rw [← List.append_assoc]
      exact isLongestBeginning_of_feeds hall hafter
    · rw [← List.append_assoc, List.getElem?_append_right le_rfl, Nat.sub_self, symbolFault,
        position, List.length_reverse, current, List.head?_eq_getElem?]
    · rw [← List.length_reverse, moveTo_length after (by simp)]

/-- Behind `2.` a resumed reading refuses the sign in `5+1`, in front of which a fresh one
ends. -/
theorem readNumber_resumed_behind_point :
    let u := "2.".toList.map Char.toUInt8
    let v := "5+1".toList.map Char.toUInt8
    numberAfter .start u = some .dot ∧ State.dot.isNumeric ∧
      IsLongestBeginning (u ++ v) 3 ∧
      ((ofBytes (u ++ v)).moveTo u.length).readNumber (some .dot) =
        .error (.invalidSymbol 3 (some '+'.toUInt8)) ((ofBytes (u ++ v)).moveTo 3) ∧
      (ofBytes (u ++ v)).readNumber none = .ok .fraction ((ofBytes (u ++ v)).moveTo 3) := by
  intro u v
  have h : numberAfter .start u = some .dot := rfl
  have hrefused : ((ofBytes (u ++ v)).moveTo u.length).readNumber (some .dot) =
      .error (.invalidSymbol 3 (some '+'.toUInt8)) ((ofBytes (u ++ v)).moveTo 3) := rfl
  obtain ⟨n, hn, hfault, -⟩ := (readNumber_resumed h rfl v).2 _ _ hrefused
  obtain rfl : 3 = n := (Fault.invalidSymbol.inj hfault).1
  exact ⟨h, rfl, hn, hrefused, rfl⟩

end Cursor

end PathFormula
