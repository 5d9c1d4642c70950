import Mathlib.Data.List.TakeWhile
import PathFormula.Proofs.Shape

/-!
# Lexemes end between characters

A recogniser works on bytes and could stop inside a character.  None does: every
recogniser that ends by the bytes it has passed ends behind an ASCII byte, and
the one that reads a lone character goes on to where the next one begins.

## Main definitions

* `Cursor.EndsAscii passed` — the byte passed last is ASCII, if there is one.

## Main results

* `endsAscii_readNumber`, `endsAscii_readString`, `endsAscii_readReference` — the
  recognisers stop behind an ASCII byte.
* `exists_encode_of_isRead` — a lexeme of a text is a text, and so is what it
  leaves.
-/

namespace PathFormula

open Literal

/-! ### Bytes -/

theorem Byte.lt_of_isWord {b : UInt8} (hb : isWord b) : b < 0x80 := by
  simp only [isWord, isAlphanumeric, isDigit, isUpper, isLower, Bool.or_eq_true, Bool.and_eq_true,
    decide_eq_true_eq, beq_iff_eq] at hb
  -- each of the three ranges ends within ASCII
  rcases hb with ((hb | hb) | hb) | rfl
  · exact UInt8.lt_of_le_of_lt hb.2 (by decide)
  · exact UInt8.lt_of_le_of_lt hb.2 (by decide)
  · exact UInt8.lt_of_le_of_lt hb.2 (by decide)
  · decide

theorem Byte.lt_of_isReference {b : UInt8} (hb : isReference b) : b < 0x80 := by
  rw [isReference, Bool.or_eq_true] at hb
  rcases hb with hb | hb
  · exact lt_of_isWord (by rw [isWord, hb]; rfl)
  · split at hb
    case h_7 => cases hb
    all_goals next h =>
      rw [eq_of_ofUInt8 h]
      decide

namespace Literal

theorem Context.quote_lt (context : Context) : context.quote < 0x80 := by
  cases context with
  | numeric => decide
  | quoted delimiter =>
    rw [quote]
    split <;> decide

/-- A byte outside ASCII is of the class of everything else. -/
theorem ByteClass.ofByte?_of_le (context : Context) {b : UInt8} (hb : 0x80 ≤ b) :
    ofByte? context b = some other := by
  unfold ofByte?
  split
  -- every character that has a class of its own is ASCII
  all_goals try next h =>
    rw [Byte.eq_of_ofUInt8 h] at hb
    exact absurd hb (by decide)
  have hquote : b ≠ context.quote := by
    rintro rfl
    exact absurd context.quote_lt (UInt8.not_lt.mpr hb)
  rw [if_neg (UInt8.not_lt.mpr (UInt8.le_trans (by decide) hb)), if_neg (by simpa using hquote)]

theorem State.move_other_ne_done (last : State) : last.move .other ≠ .done := by
  cases last <;> decide

theorem State.not_isNumeric_of_move_other {last state : State}
    (h : last.move .other = .next state) : state.isNumeric = false := by
  cases last <;> cases h
  rfl

/-- A byte that leads to a state of a number is ASCII. -/
theorem lt_of_isNumeric {b : UInt8} {c : ByteClass} {last state : State}
    (hb : ByteClass.ofByte? .numeric b = some c) (hmove : last.move c = .next state)
    (hnumeric : state.isNumeric) : b < 0x80 := by
  by_contra hle
  rw [ByteClass.ofByte?_of_le .numeric (UInt8.not_lt.mp hle), Option.some_inj] at hb
  rw [← hb] at hmove
  rw [State.not_isNumeric_of_move_other hmove] at hnumeric
  cases hnumeric

end Literal

namespace Cursor

/-- The byte passed last is ASCII, if there is one. -/
def EndsAscii (passed : List UInt8) : Prop := ∀ b ∈ passed.head?, b < 0x80

@[simp] theorem endsAscii_nil : EndsAscii [] := by simp [EndsAscii]

@[simp] theorem endsAscii_cons (b : UInt8) (passed : List UInt8) :
    EndsAscii (b :: passed) ↔ b < 0x80 := by simp [EndsAscii]

/-! ### Numbers -/

theorem eq_of_endNumber {c c' : Cursor} {last state : State}
    (h : endNumber c last = .ok state c') : c' = c := by
  have := cursor_endNumber c last
  rwa [h] at this

theorem eq_of_stopNumber {strict : Bool} {c c' : Cursor} {last state : State}
    (h : stopNumber strict c last = .ok state c') : c' = c := by
  have := cursor_stopNumber strict c last
  rwa [h] at this

/-- A number takes ASCII bytes only. -/
theorem endsAscii_readNumberFrom {strict : Bool} {last state : State} {passed rest : List UInt8}
    {c : Cursor} (hpassed : EndsAscii passed)
    (h : readNumberFrom strict last passed rest = .ok state c) : EndsAscii c.passed := by
  fun_induction readNumberFrom strict last passed rest with
  | case1 last passed => rwa [eq_of_endNumber h]
  | case2 => cases h
  | case3 => cases h; exact hpassed
  | case4 => rwa [eq_of_stopNumber h]
  | case5 last passed b rest k hk state' hmove hnumeric ih =>
    refine ih ?_ h
    rw [endsAscii_cons]
    exact lt_of_isNumeric hk hmove hnumeric
  | case6 => rwa [eq_of_stopNumber h]

theorem endsAscii_readNumber {resume : Option State} {c c' : Cursor} {state : State}
    (hc : EndsAscii c.passed) (h : c.readNumber resume = .ok state c') : EndsAscii c'.passed :=
  endsAscii_readNumberFrom hc h

/-! ### Strings -/

/-- Only an ASCII byte can end a string. -/
theorem lt_of_stringMove_eq_done {delimiter b : UInt8} {last : State}
    (h : stringMove delimiter last b = .done) : b < 0x80 := by
  by_contra hb
  rw [stringMove, ByteClass.ofByte?_of_le _ (UInt8.not_lt.mp hb)] at h
  exact State.move_other_ne_done last h

theorem endsAscii_readStringFrom {delimiter : UInt8} {last : State} {passed rest : List UInt8}
    {c : Cursor} (h : readStringFrom delimiter last passed rest = .ok () c) :
    EndsAscii c.passed := by
  fun_induction readStringFrom delimiter last passed rest with
  | case1 => cases h
  | case2 last passed b rest state _ ih => exact ih h
  | case3 last passed b rest hdone =>
    cases h
    rw [endsAscii_cons]
    exact lt_of_stringMove_eq_done hdone
  | case4 => cases h

/-- A string ends behind its closing quote. -/
theorem endsAscii_readString {delimiter : UInt8} {resume : Option State} {c c' : Cursor}
    (h : c.readString delimiter resume = .ok () c') : EndsAscii c'.passed :=
  endsAscii_readStringFrom h

/-! ### References -/

/-- A byte that is an item by itself is ASCII, and so is one that closes a bracket. -/
theorem lt_of_role {b : UInt8} (h : Role.ofByte b ≠ .other) : b < 0x80 := by
  unfold Role.ofByte at h
  split at h
  case h_5 =>
    split_ifs at h with hquote hreference
    · rcases Byte.eq_of_isQuote hquote with rfl | rfl <;> decide
    · exact Byte.lt_of_isReference hreference
    · exact absurd rfl h
  all_goals next hb =>
    rw [Byte.eq_of_ofUInt8 hb]
    decide

/-- Outside all brackets and keys, a reference has just passed an ASCII byte.
Inside them it may have passed anything, but the byte that leads out is ASCII. -/
theorem endsAscii_readItemsFrom {nest : List Bracket} {key : Option (UInt8 × State)}
    {passed rest : List UInt8} {c : Cursor} (hpassed : nest = [] → key = none → EndsAscii passed)
    (h : readItemsFrom nest key passed rest = .ok () c) : EndsAscii c.passed := by
  fun_induction readItemsFrom nest key passed rest with
  | case1 nest key passed hend =>
    cases h
    simp only [Bool.and_eq_true, Option.isNone_iff_eq_none, List.isEmpty_iff] at hend
    exact hpassed hend.2 hend.1
  | case2 => cases h
  | case3 nest passed b rest delimiter last state _ ih => exact ih (by simp) h
  | case4 nest passed b rest delimiter last hdone ih =>
    refine ih ?_ h
    simp [lt_of_stringMove_eq_done hdone]
  | case5 => cases h
  | case6 nest passed b rest _ ih => exact ih (by simp) h
  | case7 nest passed b rest kind _ ih => exact ih (by simp) h
  | case8 passed b rest kind _ =>
    cases h
    exact hpassed rfl rfl
  | case9 passed b rest innermost outer hrole ih =>
    refine ih ?_ h
    simp [lt_of_role (b := b) (by simp [hrole])]
  | case10 => cases h
  | case11 nest passed b rest hrole ih =>
    refine ih ?_ h
    simp [lt_of_role (b := b) (by simp [hrole])]
  | case12 nest passed b rest hrole hnest =>
    cases h
    exact hpassed (by simpa using hnest) rfl
  | case13 nest passed b rest hrole hnest ih =>
    refine ih (fun hnil => absurd hnil ?_) h
    simpa using hnest

/-- A reference ends behind an item. -/
theorem endsAscii_readReference {c c' : Cursor} (hc : EndsAscii c.passed)
    (h : c.readReference = .ok () c') : EndsAscii c'.passed := by
  unfold readReference at h
  split at h
  · cases h
  · split at h
    · split at h
      next after hnumber =>
        exact endsAscii_readItemsFrom (fun _ _ => endsAscii_readNumber hc hnumber) h
      next => cases h
    · split at h
      · exact endsAscii_readItemsFrom (fun _ _ => hc) h
      · cases h

end Cursor

/-! ### Lexemes -/

/-- A mark is written in ASCII. -/
theorem Mark.lt_of_mem_bytes (m : Mark) : ∀ b ∈ m.bytes, b < 0x80 := by
  have h : m.bytes.all (· < 0x80) := by
    rcases m with op | _
    · cases op <;> decide
    · decide
  simpa using h

namespace Lexeme

/-- A lexeme ends behind an ASCII byte, unless it is a lone character: that one
goes on to where the next character begins. -/
theorem getLast_lt_or_boundary_of_isRead {afterOperand : Bool} {b : UInt8}
    {rest after : List UInt8} {l : Lexeme} (h : IsRead afterOperand b rest l after) :
    (∀ a ∈ l.bytes.getLast?, a < 0x80) ∨ Utf8.Boundary after := by
  cases h with
  | operator hb =>
    exact .inl fun a ha => Mark.lt_of_mem_bytes _ a (List.mem_of_getLast? ha)
  | number hb hc =>
    refine .inl ?_
    simpa [bytes, Cursor.EndsAscii] using Cursor.endsAscii_readNumber (by simp [Cursor.ofBytes]) hc
  | quoted hb hc =>
    refine .inl ?_
    simpa [bytes, Cursor.EndsAscii] using Cursor.endsAscii_readString hc
  | reference hb hc =>
    refine .inl ?_
    have hascii := Cursor.endsAscii_readReference (by simp [Cursor.ofBytes]) hc
    simpa [bytes, Cursor.EndsAscii] using hascii
  | dot | openParen | closeParen =>
    refine .inl ?_
    simp only [bytes, List.getLast?_singleton, Option.mem_some_iff, forall_eq']
    decide
  | word hb =>
    refine .inl fun a ha => Byte.lt_of_isWord ?_
    rcases List.mem_cons.mp (List.mem_of_getLast? ha) with rfl | ha
    · exact Lead.isWord hb
    · exact List.mem_takeWhile_imp ha
  | symbol hb =>
    refine .inr fun a ha => ?_
    have := List.head?_dropWhile_not Utf8.isContinuation rest
    rw [Option.mem_def.mp ha] at this
    simpa using this

/-- A lexeme of a text is a text, and so is what it leaves. -/
theorem exists_encode_of_isRead {afterOperand : Bool} {b : UInt8} {rest after : List UInt8}
    {l : Lexeme} {cs : List Char} (h : IsRead afterOperand b rest l after)
    (hcs : b :: rest = Utf8.encode cs) :
    ∃ front back, cs = front ++ back ∧ l.bytes = Utf8.encode front ∧
      after = Utf8.encode back := by
  rw [← bytes_append_of_isRead h] at hcs
  rcases getLast_lt_or_boundary_of_isRead h with hlast | hafter
  · exact Utf8.exists_encode_of_append_ascii hcs hlast
  · exact Utf8.exists_encode_of_append hcs hafter

end Lexeme

end PathFormula
