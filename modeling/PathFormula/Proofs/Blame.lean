import PathFormula.Proofs.Contexts
import PathFormula.Proofs.Lossless
import PathFormula.Proofs.Stack

/-!
# What faults say

A fault names a place in the formula and what is wrong there.  Both can be checked in the
formula alone: the place is one where the formula can be cut, and what the fault says of
the byte there, or of the word there, is true.  A recogniser refuses where its cursor has
stopped, which is between two characters although it works on bytes; the builder refuses
at the first byte of a piece, or at an open parenthesis it has kept the place of.

## Main definitions

* `IsBoundary s o` — the text can be cut `o` bytes from its start.
* `Fault.PointsInto s` — the place of a fault, if it has one, is such an offset.
* `Fault.IsLexical brackets s`, `Fault.IsSyntactic v s` — what faults say is true of `s`,
  those that no vocabulary has a part in, and all of them.
* `Cursor.Refuses` — how a recogniser refuses at a cursor.
* `Builder.StandsAt` — a builder stands between two parts of a formula.

## Main results

* `Lexeme.exists_refuses_of_read` — a lexeme is refused where its cursor has stopped.
* `Builder.StandsAt.run` — what a builder says of the pieces it takes is true.
* `blames_of_ofFormula` — **faults point into the formula and say what is true of it.**
-/

namespace PathFormula

/-- The text can be cut `o` bytes from its start. -/
def IsBoundary (s : String) (o : Nat) : Prop :=
  ∃ front back, s = front ++ back ∧ (Utf8.bytes front).length = o

namespace Fault

/-- The place of the fault, if it has one, is in the text and in no character of it. -/
def PointsInto (s : String) (fault : Fault) : Prop :=
  ∀ o ∈ fault.offset?, o ≤ (Utf8.bytes s).length ∧ IsBoundary s o

/-- What the fault says of the text is true, where it may be one of the `brackets` that
has no partner, and names play no part. -/
def IsLexical (brackets : List UInt8) (s : String) : Fault → Prop
  | endOfInput o => o = (Utf8.bytes s).length
  | invalidSymbol o byte =>
    byte = (Utf8.bytes s)[o]? ∧ (byte = none ↔ o = (Utf8.bytes s).length)
  | unbalancedParens o => ∃ b ∈ brackets, (Utf8.bytes s)[o]? = some b
  | unknownFunction _ _ | unknownConstant _ _ | malformedFormula _ => False

/-- The name is the longest run of word bytes at an offset, in small letters, and `next` is
the byte behind this run. -/
structure Names (s : String) (name : String) (o : Nat) (next : Option UInt8) : Prop where
  run_ne : ((Utf8.bytes s).drop o).takeWhile Byte.isWord ≠ []
  name_eq : Utf8.bytes name = (((Utf8.bytes s).drop o).takeWhile Byte.isWord).map Byte.lower
  next_eq : (((Utf8.bytes s).drop o).dropWhile Byte.isWord).head? = next

/-- What the fault says of the text and of the vocabulary is true. -/
def IsSyntactic (v : Vocabulary) (s : String) : Fault → Prop
  | unknownFunction name o => v.isFunction name = false ∧ Names s name o (some '('.toUInt8)
  | unknownConstant name o =>
    v.isConstant name = false ∧ ∃ next, next ≠ some '('.toUInt8 ∧ Names s name o next
  | malformedFormula entry => entry = "="
  | fault => fault.IsLexical ['('.toUInt8, ')'.toUInt8, ']'.toUInt8] s

end Fault

/-! ### Recognisers -/

namespace Cursor

open Literal

/-- How a recogniser refuses at a cursor: for the byte there, for the end of the input, or
for a closing bracket. -/
inductive Refuses (c : Cursor) : Fault → Prop
  | symbol : Refuses c c.symbolFault
  | ended : Refuses c c.endFault
  | bracket {b : UInt8} (hc : c.current = some b) (hb : b ∈ [')'.toUInt8, ']'.toUInt8]) :
    Refuses c (.unbalancedParens c.position)

/-- The cursor stands between two characters, whatever text it is in. -/
def IsBetween (c : Cursor) : Prop := EndsAscii c.passed ∨ Utf8.Boundary c.rest

variable {c : Cursor} {fault : Fault} {passed rest : List UInt8} {d : UInt8} {s t : State}

/-- A number is refused at a byte, which a number that begins behind ASCII bytes meets behind
ASCII bytes. -/
theorem refuses_of_readNumberFrom {strict : Bool}
    (h : readNumberFrom strict s passed rest = .error fault c) :
    c.Refuses fault ∧ (EndsAscii passed → c.IsBetween) := by
  have hend {c' : Cursor} {last : State} (h : endNumber c' last = .error fault c) :
      c.Refuses fault ∧ (EndsAscii c'.passed → c.IsBetween) := by
    unfold endNumber at h
    split at h
    · cases h
    · cases h
      exact ⟨.symbol, .inl⟩
  have hstop {c' : Cursor} {last : State} (h : stopNumber strict c' last = .error fault c) :
      c.Refuses fault ∧ (EndsAscii c'.passed → c.IsBetween) := by
    unfold stopNumber at h
    split at h
    · cases h
      exact ⟨.symbol, .inl⟩
    · exact hend h
  fun_induction readNumberFrom strict s passed rest with
  | case1 last passed => exact hend h
  | case2 =>
    cases h
    exact ⟨.symbol, .inl⟩
  | case3 => cases h
  | case4 => exact hstop h
  | case5 last passed b rest k hk state hmove hnumeric ih =>
    refine (ih h).imp_right fun hbetween _ => hbetween ?_
    rw [endsAscii_cons]
    exact lt_of_isNumeric hk hmove hnumeric
  | case6 => exact hstop h

/-- Outside ASCII, a string goes on with a byte to itself, or does not go on with it. -/
theorem stringMove_of_le {b : UInt8} (hb : 0x80 ≤ b) :
    (stringMove d s b = .next t → t = .string) ∧ stringMove d .string b = .next .string := by
  rw [stringMove, stringMove, ByteClass.ofByte?_of_le _ hb]
  constructor
  · intro h
    cases s <;> cases h
    rfl
  · rfl

/-- Inside a string bytes of any character may have been passed, but outside escapes only
ASCII bytes are refused. -/
theorem isBetween_of_stringMove {b : UInt8} (h : stringMove d s b = .invalid)
    (hpassed : s = .string ∨ EndsAscii passed) : IsBetween ⟨passed, b :: rest⟩ := by
  rcases hpassed with rfl | hpassed
  · refine .inr ?_
    rw [Utf8.boundary_cons]
    refine Utf8.isContinuation_of_lt ?_
    by_contra hb
    rw [(stringMove_of_le (t := .string) (s := .string) (UInt8.not_lt.mp hb)).2] at h
    cases h
  · exact .inl hpassed

theorem endsAscii_of_stringMove {b : UInt8} (h : stringMove d s b = .next t) :
    t = .string ∨ EndsAscii (b :: passed) := by
  by_cases hb : b < 0x80
  · exact .inr (by simpa using hb)
  · exact .inl ((stringMove_of_le (UInt8.not_lt.mp hb)).1 h)

theorem refuses_stringFault (c : Cursor) (d : UInt8) : c.Refuses (c.stringFault d) := by
  unfold stringFault
  split
  · exact .ended
  · exact .symbol

/-- A string is refused for the byte it stands at, or for its end. -/
theorem refuses_of_readStringFrom (h : readStringFrom d s passed rest = .error fault c) :
    c.Refuses fault ∧ (s = .string ∨ EndsAscii passed → c.IsBetween) := by
  fun_induction readStringFrom d s passed rest with
  | case1 =>
    cases h
    exact ⟨.ended, fun _ => .inr (by simp [Utf8.Boundary])⟩
  | case2 last passed b rest state hmove ih =>
    exact (ih h).imp_right fun hbetween _ => hbetween (endsAscii_of_stringMove hmove)
  | case3 => cases h
  | case4 last passed b rest hmove =>
    cases h
    exact ⟨refuses_stringFault _ d, isBetween_of_stringMove hmove⟩

/-- Items are refused inside a key as strings are, and outside at a closing bracket. -/
theorem refuses_of_readItemsFrom {nest : List Bracket} {key : Option (UInt8 × State)}
    (h : readItemsFrom nest key passed rest = .error fault c) :
    c.Refuses fault ∧ ((∀ k ∈ key, k.2 = .string ∨ EndsAscii passed) → c.IsBetween) := by
  fun_induction readItemsFrom nest key passed rest with
  | case1 => cases h
  | case2 =>
    cases h
    exact ⟨.ended, fun _ => .inr (by simp [Utf8.Boundary])⟩
  | case3 nest passed b rest delimiter last state hmove ih =>
    refine (ih h).imp_right fun hbetween _ => hbetween ?_
    rintro k ⟨⟩
    exact endsAscii_of_stringMove hmove
  | case4 nest passed b rest delimiter last hdone ih =>
    exact (ih h).imp_right fun hbetween _ => hbetween (by simp)
  | case5 nest passed b rest delimiter last hmove =>
    cases h
    exact ⟨refuses_stringFault _ delimiter,
      fun hpassed => isBetween_of_stringMove hmove (hpassed (delimiter, last) rfl)⟩
  | case6 nest passed b rest _ ih =>
    refine (ih h).imp_right fun hbetween _ => hbetween ?_
    rintro k ⟨⟩
    exact .inl rfl
  | case7 nest passed b rest kind _ ih =>
    exact (ih h).imp_right fun hbetween _ => hbetween (by simp)
  | case8 => cases h
  | case9 passed b rest innermost outer hrole ih =>
    exact (ih h).imp_right fun hbetween _ => hbetween (by simp)
  | case10 passed b rest kind hrole innermost outer hne =>
    cases h
    obtain rfl : b = kind.closer := eq_of_beq ((Role.ofByte_eq_iff (.closing kind) b).mp hrole)
    have hb : kind.closer ∈ [')'.toUInt8, ']'.toUInt8] := by cases kind <;> decide
    refine ⟨.bracket rfl hb, fun _ => .inr ?_⟩
    rw [Utf8.boundary_cons]
    exact Utf8.isContinuation_of_lt (lt_of_role (by simp [hrole]))
  | case11 nest passed b rest _ ih =>
    exact (ih h).imp_right fun hbetween _ => hbetween (by simp)
  | case12 => cases h
  | case13 nest passed b rest _ hnest ih =>
    exact (ih h).imp_right fun hbetween _ => hbetween (by simp)

end Cursor

/-! ### Lexemes -/

theorem Lexeme.exists_of_ofOutcome_eq_error {α : Type} {kind : List UInt8 → Lexeme}
    {outcome : Cursor.Outcome α} {fault : Fault} (h : ofOutcome kind outcome = .error fault) :
    ∃ c, outcome = .error fault c := by
  cases outcome with
  | ok a c => cases h
  | error fault' c =>
    cases h
    exact ⟨c, rfl⟩

/-- A lexeme is refused where the cursor of its recogniser has stopped. -/
theorem Lexeme.exists_refuses_of_read {afterOperand : Bool} {b : UInt8} {rest : List UInt8}
    {fault : Fault} (h : read afterOperand b rest = .error fault) :
    ∃ c : Cursor, c.input = b :: rest ∧ c.Refuses fault ∧ c.IsBetween := by
  have hnumber (h : readNumber b rest = .error fault) :
      ∃ c : Cursor, c.input = b :: rest ∧ c.Refuses fault ∧ c.IsBetween := by
    have hinput := Cursor.input_readNumber none (Cursor.ofBytes (b :: rest))
    obtain ⟨c, hc⟩ := exists_of_ofOutcome_eq_error h
    rw [hc] at hinput
    obtain ⟨hrefuses, hbetween⟩ := Cursor.refuses_of_readNumberFrom hc
    exact ⟨c, hinput, hrefuses, hbetween Cursor.endsAscii_nil⟩
  unfold read at h
  cases hb : Lead.ofByte b with
  | sign =>
    cases afterOperand with
    | true => simp [hb, readOperator] at h
    | false => exact hnumber (by simpa [hb] using h)
  | digit => exact hnumber (by simpa [hb] using h)
  | quote =>
    simp only [hb] at h
    have hinput := Cursor.input_readString b none (Cursor.ofBytes (b :: rest))
    obtain ⟨c, hc⟩ := exists_of_ofOutcome_eq_error h
    rw [hc] at hinput
    obtain ⟨hrefuses, hbetween⟩ := Cursor.refuses_of_readStringFrom hc
    exact ⟨c, hinput, hrefuses, hbetween (.inr Cursor.endsAscii_nil)⟩
  | root =>
    simp only [hb] at h
    have hinput := Cursor.input_readReference (Cursor.ofBytes (b :: rest))
    obtain ⟨c, hc⟩ := exists_of_ofOutcome_eq_error h
    rw [hc] at hinput
    have hitems : (Cursor.ofBytes (b :: rest)).readReference =
        Cursor.readItemsFrom [] none [] (b :: rest) := by
      rcases Lead.eq_root hb with rfl | rfl <;> rfl
    rw [hitems] at hc
    obtain ⟨hrefuses, hbetween⟩ := Cursor.refuses_of_readItemsFrom hc
    exact ⟨c, hinput, hrefuses, hbetween (by simp)⟩
  | operator | dot | openParen | closeParen | word | symbol =>
    simp [hb, readOperator, readWord, readSymbol] at h

/-! ### Places in a text -/

theorem IsBoundary.le {s : String} {o : Nat} (h : IsBoundary s o) : o ≤ (Utf8.bytes s).length := by
  obtain ⟨front, back, rfl, rfl⟩ := h
  simp

theorem IsBoundary.append {s : String} {o : Nat} (h : IsBoundary s o) (front : String) :
    IsBoundary (front ++ s) ((Utf8.bytes front).length + o) := by
  obtain ⟨front', back, rfl, rfl⟩ := h
  exact ⟨front ++ front', back, (String.append_assoc ..).symm, by simp⟩

theorem isBoundary_length (s : String) : IsBoundary s (Utf8.bytes s).length :=
  ⟨s, "", by simp, rfl⟩

/-- Between two characters the text of a cursor can be cut. -/
theorem Cursor.isBoundary_position {c : Cursor} {s : String} (hs : Utf8.bytes s = c.input)
    (hc : c.IsBetween) : IsBoundary s c.position := by
  have hcut : ∃ front back, s.toList = front ++ back ∧ c.passed.reverse = Utf8.encode front ∧
      c.rest = Utf8.encode back := by
    rcases hc with hpassed | hrest
    · exact Utf8.exists_encode_of_append_ascii hs.symm (by simpa [EndsAscii] using hpassed)
    · exact Utf8.exists_encode_of_append hs.symm hrest
  obtain ⟨front, back, hlist, hfront, -⟩ := hcut
  refine ⟨String.ofList front, String.ofList back, String.toList_inj.mp (by simp [hlist]), ?_⟩
  rw [Utf8.bytes_ofList, ← hfront, List.length_reverse, position]

namespace Fault

variable {brackets : List UInt8} {s : String} {fault : Fault}

theorem isLexical_invalidSymbol {o : Nat} (ho : o ≤ (Utf8.bytes s).length) :
    (invalidSymbol o (Utf8.bytes s)[o]?).IsLexical brackets s := by
  refine ⟨rfl, ?_⟩
  rw [List.getElem?_eq_none_iff]
  omega

/-- What a recogniser refuses, it refuses with a true fault. -/
theorem blames_of_refuses {c : Cursor} (hs : Utf8.bytes s = c.input) (hc : c.IsBetween)
    (h : c.Refuses fault) :
    fault.PointsInto s ∧ fault.IsLexical [')'.toUInt8, ']'.toUInt8] s := by
  have hposition := Cursor.isBoundary_position hs hc
  have hat := c.getElem?_position
  rw [← hs] at hat
  cases h with
  | symbol =>
    constructor
    · rintro o ⟨⟩
      exact ⟨hposition.le, hposition⟩
    · rw [Cursor.symbolFault, ← hat]
      exact isLexical_invalidSymbol hposition.le
  | ended =>
    have hend : c.position + c.rest.length = (Utf8.bytes s).length := by
      rw [hs, Cursor.input, List.length_append, List.length_reverse, Cursor.position]
    rw [Cursor.endFault, hend]
    constructor
    · rintro o ⟨⟩
      exact ⟨le_rfl, isBoundary_length s⟩
    · rfl
  | bracket hcurrent hb =>
    constructor
    · rintro o ⟨⟩
      exact ⟨hposition.le, hposition⟩
    · exact ⟨_, hb, hat.trans hcurrent⟩

/-- With a text in front, a true fault is true further on. -/
theorem PointsInto.shift (h : fault.PointsInto s) (front : String) :
    (fault.shift (Utf8.bytes front).length).PointsInto (front ++ s) := by
  intro o ho
  rw [offset?_shift] at ho
  obtain ⟨o', ho', rfl⟩ := Option.mem_map.mp ho
  have hboundary := (h o' ho').2.append front
  exact ⟨hboundary.le, hboundary⟩

theorem IsLexical.shift (h : fault.IsLexical brackets s) (front : String) :
    (fault.shift (Utf8.bytes front).length).IsLexical brackets (front ++ s) := by
  have hat (o : Nat) :
      (Utf8.bytes (front ++ s))[(Utf8.bytes front).length + o]? = (Utf8.bytes s)[o]? := by
    rw [Utf8.bytes_append, List.getElem?_append_right (Nat.le_add_right _ o),
      Nat.add_sub_cancel_left]
  have hlength : (Utf8.bytes (front ++ s)).length =
      (Utf8.bytes front).length + (Utf8.bytes s).length := by simp
  cases fault with
  | endOfInput o =>
    obtain rfl : o = (Utf8.bytes s).length := h
    exact hlength.symm
  | invalidSymbol o byte =>
    obtain ⟨rfl, hend⟩ := h
    refine ⟨(hat o).symm, ?_⟩
    rw [hend, hlength, Nat.add_left_cancel_iff]
  | unbalancedParens o =>
    obtain ⟨b, hb, ho⟩ := h
    exact ⟨b, hb, (hat o).trans ho⟩
  | unknownFunction | unknownConstant | malformedFormula => cases h

theorem IsLexical.isSyntactic (h : fault.IsLexical [')'.toUInt8, ']'.toUInt8] s) (v : Vocabulary) :
    fault.IsSyntactic v s := by
  cases fault with
  | endOfInput | invalidSymbol => exact h
  | unbalancedParens o =>
    obtain ⟨b, hb, ho⟩ := h
    exact ⟨b, List.mem_cons_of_mem _ hb, ho⟩
  | unknownFunction | unknownConstant | malformedFormula => cases h

end Fault

/-- A reading ends with a true fault. -/
theorem Reading.blames_of_ending {s : String} {fault : Fault}
    (h : (Reading.ofText s).ending = .error fault) :
    fault.PointsInto s ∧ fault.IsLexical [')'.toUInt8, ']'.toUInt8] s := by
  obtain ⟨last, left, hreads, hstop⟩ := Reading.exists_reads_ofText s
  rw [h] at hstop
  obtain ⟨segs, trail, hs, htrail, hholds⟩ := exists_segments_of_reads hreads rfl
  cases hstop with
  | @fault gap rest b fault hgap hb hl =>
  -- the text in front of the refused lexeme, and the text from it on
  obtain ⟨hblank, hgapBytes⟩ := exists_blank_of_isGap hgap
  obtain ⟨back, hback, hrest⟩ := Utf8.exists_encode_of_ascii_append htrail.symm
    fun x hx => (Byte.isSpace_iff.mp (hgap x hx)).1
  obtain ⟨c, hinput, hrefuses, hbetween⟩ := Lexeme.exists_refuses_of_read hl
  have hbytes : Utf8.bytes (String.ofList back) = c.input := by
    rw [Utf8.bytes_ofList, hinput, hrest]
  obtain ⟨hpoints, hlexical⟩ := Fault.blames_of_refuses hbytes hbetween hrefuses
  have hfront := bytes_join hholds (String.ofList (gap.map Char.ofUInt8))
  have hlength : (Piece.flatten (Reading.ofText s).pieces).length + gap.length =
      (Utf8.bytes (Segment.join segs ++ String.ofList (gap.map Char.ofUInt8))).length := by
    rw [hfront, hgapBytes, List.length_append]
  have htext :
      s = Segment.join segs ++ String.ofList (gap.map Char.ofUInt8) ++ String.ofList back := by
    rw [String.append_assoc, ← String.ofList_append, ← hback, String.ofList_toList]
    exact hs
  rw [hlength, htext]
  exact ⟨hpoints.shift _, hlexical.shift _⟩

/-! ### The builder -/

/-- A release fails at an equals sign, or at an open parenthesis if the test holds of it. -/
theorem releaseWhile_eq_error {test : Pending → Bool} {stack : List Pending} {output : List Entry}
    {fault : Fault} (h : releaseWhile test stack output = .error fault) :
    fault = .malformedFormula "=" ∨
      ∃ o, .openParen o ∈ stack ∧ test (.openParen o) ∧ fault = .unbalancedParens o := by
  obtain ⟨above, top, below, rfl, -, htop, hrelease⟩ := releaseWhile_eq_error_iff.mp h
  rcases top with (op | _) | name | o <;> cases hrelease
  · exact .inl rfl
  · exact .inr ⟨o, by simp, htop, rfl⟩

namespace Builder

variable {v : Vocabulary} {b b' : Builder} {offset : Nat} {l : Lexeme} {fault : Fault}
  {s front trail : String}

/-- How a builder can refuse a lexeme that stands at `offset`. -/
inductive Rejects (v : Vocabulary) (offset : Nat) : Lexeme → Fault → Prop
  /-- For its first byte. -/
  | symbol {l : Lexeme} : Rejects v offset l (.invalidSymbol offset l.bytes.head?)
  /-- For having no partner. -/
  | closeParen : Rejects v offset .closeParen (.unbalancedParens offset)
  /-- For an equals sign that is to be released. -/
  | equals {l : Lexeme} : Rejects v offset l (.malformedFormula "=")
  /-- For naming no function. -/
  | function {bytes : List UInt8} (hv : v.isFunction (Lexeme.wordText bytes) = false) :
    Rejects v offset (.word bytes true) (.unknownFunction (Lexeme.wordText bytes) offset)
  /-- For naming no constant. -/
  | constant {bytes : List UInt8} (hv : v.isConstant (Lexeme.wordText bytes) = false) :
    Rejects v offset (.word bytes false) (.unknownConstant (Lexeme.wordText bytes) offset)

theorem rejects_of_take (h : b.take v offset l = .error fault) : Rejects v offset l fault := by
  cases l with
  | operator mark =>
    rw [take, pushOperator_eq] at h
    split at h
    · cases h
    · cases h
      exact .symbol
  | closeParen =>
    rw [take, closeParen] at h
    split at h
    · cases h
    · cases h
      exact .closeParen
    next fault' hrelease =>
      cases h
      rcases releaseWhile_eq_error hrelease with rfl | ⟨o, -, htest, -⟩
      · exact .equals
      · cases htest
  | word bytes call =>
    cases call with
    | true =>
      rw [take] at h
      split at h
      · cases h
      next hv =>
        cases h
        exact .function (by simpa using hv)
    | false =>
      rw [take] at h
      split at h
      · cases h
      next hv =>
        cases h
        exact .constant (by simpa using hv)
  | dot | symbol =>
    cases h
    exact .symbol
  | number | quoted | reference | openParen => cases h

/-- The builder stands in the text `s`, behind its part `front`, and has kept the places of
open parentheses. -/
structure StandsAt (s front : String) (b : Builder) : Prop where
  offset_eq : b.offset = (Utf8.bytes front).length
  opened : ∀ o, .openParen o ∈ b.stack →
    IsBoundary s o ∧ (Utf8.bytes s)[o]? = some '('.toUInt8

/-- A word is the longest run of word bytes where it stands. -/
theorem names_of_word {o : Nat} {source rest : String} {call : Bool}
    (hdrop : (Utf8.bytes s).drop o = Utf8.bytes source ++ Utf8.bytes rest)
    (hshape : (Lexeme.word (Utf8.bytes source) call).IsShaped)
    (hends : (Lexeme.word (Utf8.bytes source) call).EndsBefore (Utf8.bytes rest).head?) :
    Fault.Names s (Lexeme.wordText (Utf8.bytes source)) o (Utf8.bytes rest).head? := by
  obtain ⟨b, more, hsource, hb, hmore⟩ := hshape
  have hword : ∀ x ∈ Utf8.bytes source, Byte.isWord x := by
    rw [hsource, List.forall_mem_cons]
    exact ⟨Lead.isWord hb, hmore⟩
  obtain ⟨htake, hdropWhile⟩ := span_append hword hends.1
  refine ⟨?_, ?_, ?_⟩
  · rw [hdrop, htake, hsource]
    exact List.cons_ne_nil b more
  · rw [hdrop, htake, Lexeme.bytes_wordText]
  · rw [hdrop, hdropWhile]

/-- What a builder says of a lexeme it refuses is true. -/
theorem blames_of_rejects {start : Bool} {source rest : String}
    (hs : s = front ++ (source ++ rest)) (hsource : Utf8.bytes source = l.bytes)
    (hl : l.StandsBefore start (Utf8.bytes rest))
    (h : Rejects v (Utf8.bytes front).length l fault) :
    fault.PointsInto s ∧ fault.IsSyntactic v s := by
  have hboundary : IsBoundary s (Utf8.bytes front).length := ⟨front, _, hs, rfl⟩
  have hdrop : (Utf8.bytes s).drop (Utf8.bytes front).length =
      Utf8.bytes source ++ Utf8.bytes rest := by
    rw [hs, Utf8.bytes_append, List.drop_left, Utf8.bytes_append]
  obtain ⟨hshape, -, hends⟩ := Lexeme.standsBefore_iff.mp hl
  have hat : (Utf8.bytes s)[(Utf8.bytes front).length]? = l.bytes.head? := by
    obtain ⟨b, more, hbytes, -⟩ := hl
    rw [← List.head?_drop, hdrop, hsource, hbytes]
    rfl
  have hpoints : ∀ o ∈ some (Utf8.bytes front).length,
      o ≤ (Utf8.bytes s).length ∧ IsBoundary s o := by
    rintro o ⟨⟩
    exact ⟨hboundary.le, hboundary⟩
  cases h with
  | symbol =>
    refine ⟨hpoints, ?_⟩
    rw [← hat]
    change Fault.IsLexical ['('.toUInt8, ')'.toUInt8, ']'.toUInt8] s (.invalidSymbol _ _)
    exact Fault.isLexical_invalidSymbol hboundary.le
  | closeParen => exact ⟨hpoints, _, by simp, hat⟩
  | equals => exact ⟨by rintro o ⟨⟩, rfl⟩
  | @function bs hv =>
    obtain rfl : Utf8.bytes source = bs := hsource
    have hnext := beq_iff_eq.mp hends.2.symm
    refine ⟨hpoints, hv, ?_⟩
    rw [← hnext]
    exact names_of_word hdrop hshape hends
  | @constant bs hv =>
    obtain rfl : Utf8.bytes source = bs := hsource
    exact ⟨hpoints, hv, _, by simpa using hends.2, names_of_word hdrop hshape hends⟩

/-- What can be on the stack after a lexeme: what was there, and the place of an opening
parenthesis. -/
theorem mem_stack_of_takes {o : Nat} (h : Takes v b offset l b') (ho : .openParen o ∈ b'.stack) :
    .openParen o ∈ b.stack ∨ l = .openParen ∧ o = offset := by
  cases h with
  | operator hb =>
    rcases List.mem_cons.mp ho with ho | ho
    · cases ho
    · exact .inl ((List.dropWhile_sublist _).mem ho)
  | operand hl hv => exact .inl ho
  | function hv => exact .inl (by simpa [push] using ho)
  | openParen =>
    refine (List.mem_cons.mp ho).symm.imp_right ?_
    rintro ⟨⟩
    exact ⟨rfl, rfl⟩
  | closeParen hstack habove =>
    refine .inl ?_
    rw [hstack]
    exact List.mem_append_right _ (List.mem_cons_of_mem _ ho)

/-- A step takes a piece of the text, or refuses it with a true fault. -/
theorem StandsAt.step {start : Bool} {seg : Segment} {p : Piece} {rest : String}
    (hb : b.StandsAt s front) (hs : s = front ++ seg.gap ++ (seg.source ++ rest))
    (hp : seg.Holds p) (hl : p.lexeme.StandsBefore start (Utf8.bytes rest)) :
    (∀ fault, b.step v p = .error fault → fault.PointsInto s ∧ fault.IsSyntactic v s) ∧
      ∀ b', b.step v p = .ok b' → b'.StandsAt s (front ++ seg.gap ++ seg.source) := by
  have hoffset : b.offset + p.gap.length = (Utf8.bytes (front ++ seg.gap)).length := by
    rw [Utf8.bytes_append, List.length_append, hb.offset_eq, hp.gap_eq]
  constructor
  · intro fault h
    unfold Builder.step at h
    rw [hoffset] at h
    split at h
    next => cases h
    next fault' htake =>
      cases h
      exact blames_of_rejects hs hp.source_eq hl (rejects_of_take htake)
  · intro b' h
    obtain ⟨after, htakes, rfl⟩ := step_eq_ok_iff.mp h
    refine ⟨?_, ?_⟩
    · rw [Utf8.bytes_append, List.length_append, ← hoffset, hp.source_eq, Piece.bytes,
        List.length_append, Nat.add_assoc]
    · intro o ho
      rcases mem_stack_of_takes htakes ho with ho | ⟨hopen, rfl⟩
      · exact hb.opened o ho
      · rw [hoffset]
        refine ⟨⟨_, _, hs, rfl⟩, ?_⟩
        have hsource := hp.source_eq
        rw [hopen] at hsource
        rw [hs, Utf8.bytes_append, Utf8.bytes_append seg.source, hsource,
          List.getElem?_append_right le_rfl, Nat.sub_self]
        rfl

/-- A run takes pieces of the text, or refuses one with a true fault. -/
theorem StandsAt.run {start last : Bool} {segs : List Segment} {ps : List Piece}
    (hb : b.StandsAt s front) (hs : s = front ++ (Segment.join segs ++ trail))
    (hholds : List.Forall₂ Segment.Holds segs ps)
    (hreads : Reads start (Utf8.bytes (Segment.join segs ++ trail)) ps last (Utf8.bytes trail)) :
    (∀ fault, b.run v ps = .error fault → fault.PointsInto s ∧ fault.IsSyntactic v s) ∧
      ∀ b', b.run v ps = .ok b' → ∃ front', b'.StandsAt s front' := by
  induction hholds generalizing b front start with
  | nil =>
    constructor
    · intro fault h
      cases h
    · intro b' h
      cases h
      exact ⟨front, hb⟩
  | @cons seg p segs ps hp hholds ih =>
    obtain ⟨rest, hbytes, -, hl, hps⟩ := Reads.cons_iff.mp hreads
    have hrest : rest = Utf8.bytes (Segment.join segs ++ trail) := by
      rw [bytes_join hholds, hps.bytes_append]
    rw [hrest] at hl hps
    have hsplit : s = front ++ seg.gap ++ (seg.source ++ (Segment.join segs ++ trail)) := by
      rw [hs, Segment.join_cons]
      simp only [String.append_assoc]
    obtain ⟨herror, hok⟩ := hb.step (v := v) hsplit hp hl
    rw [Builder.run]
    cases hstep : b.step v p with
    | error fault =>
      constructor
      · rintro fault' ⟨⟩
        exact herror fault hstep
      · rintro b' ⟨⟩
    | ok after =>
      exact ih (hok after hstep) (by rw [hsplit]; simp only [String.append_assoc]) hps

/-- Where the formula ends, what a builder says of it is true. -/
theorem StandsAt.finish (hb : b.StandsAt s front)
    (h : b.finish (Utf8.bytes s).length = .error fault) :
    fault.PointsInto s ∧ fault.IsSyntactic v s := by
  unfold Builder.finish at h
  split at h
  · cases h
    constructor
    · rintro o ⟨⟩
      exact ⟨le_rfl, isBoundary_length s⟩
    · rfl
  · cases h
  next fault' hrelease =>
    cases h
    rcases releaseWhile_eq_error hrelease with rfl | ⟨o, ho, -, rfl⟩
    · exact ⟨by rintro o ⟨⟩, rfl⟩
    · obtain ⟨hboundary, hat⟩ := hb.opened o ho
      constructor
      · rintro o' ⟨⟩
        exact ⟨hboundary.le, hboundary⟩
      · exact ⟨_, by simp, hat⟩

end Builder

/-- **Faults point into the formula, and say what is true of it.**

Whether a formula is refused for having no tokens or no postfix order, the place of the
fault, if it has one, is an offset where the formula can be cut.  The end of the input is
at the end; a byte that may not stand there stands there; a bracket that has no partner
stands there, a closing one if tokens alone were asked for; a word that names nothing is
the longest one there, and is called if it should have named a function.  A unit that is
no operator is the equals sign.  Tokens alone are refused for no name and no such unit. -/
theorem blames_of_ofFormula (v : Vocabulary) (s : String) (fault : Fault) :
    (TokenList.ofFormula s = .error fault →
      fault.PointsInto s ∧ fault.IsLexical [')'.toUInt8, ']'.toUInt8] s) ∧
    (Postfix.ofFormula v s = .error fault → fault.PointsInto s ∧ fault.IsSyntactic v s) := by
  constructor
  · intro h
    rw [TokenList.ofFormula_eq_ofReading, TokenList.ofReading] at h
    cases hending : (Reading.ofText s).ending with
    | ok gap =>
      rw [hending] at h
      cases h
    | error fault' =>
      rw [hending] at h
      cases h
      exact Reading.blames_of_ending hending
  · intro h
    obtain ⟨last, left, hreads, -⟩ := Reading.ofBytes_eq_iff.mp (rfl : Reading.ofText s = _)
    obtain ⟨segs, trail, hs, rfl, hholds⟩ := exists_segments_of_reads hreads rfl
    have hstart : Builder.start.StandsAt s "" := ⟨rfl, by rintro o ⟨⟩⟩
    obtain ⟨herror, hok⟩ := hstart.run (v := v) (by simpa using hs) hholds
      (by rw [← hs]; exact hreads)
    rw [Postfix.ofFormula_eq_ofReading, Postfix.ofReading] at h
    split at h
    next fault' hrun =>
      cases h
      exact herror fault hrun
    next b hrun =>
      obtain ⟨front, hb⟩ := hok b hrun
      split at h
      next fault' hending =>
        cases h
        obtain ⟨hpoints, hlexical⟩ := Reading.blames_of_ending hending
        exact ⟨hpoints, hlexical.isSyntactic v⟩
      next => exact hb.finish h

/-- A function that the standard vocabulary does not have, and a bracket that is closed by
one of the other kind, each behind a character of two bytes. -/
theorem blames_of_ofFormula_call :
    (Fault.unknownFunction "foo" 7).IsSyntactic .standard "'é' + Foo(1)" ∧
      (Fault.unbalancedParens 9).PointsInto "'é' + $[)" := by
  have hcall : Postfix.ofFormula .standard "'é' + Foo(1)" = .error (.unknownFunction "foo" 7) := by
    decide +kernel
  have hbracket : TokenList.ofFormula "'é' + $[)" = .error (.unbalancedParens 9) := by
    decide +kernel
  exact ⟨((blames_of_ofFormula _ _ _).2 hcall).2,
    ((blames_of_ofFormula .standard _ _).1 hbracket).1⟩

end PathFormula
