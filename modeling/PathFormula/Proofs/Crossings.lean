import PathFormula.Proofs.LongestNumber
import PathFormula.Proofs.Quotation

/-!
# Where numbers and strings cross

Numbers and strings are the two halves of one automaton, and they share its start.  A byte
leads from one half to the other in one place only, where the quote opens a string, and
there the reading of a number stops.  But no reading asks in which half a literal is
complete.  The reading of a number that is resumed inside a string takes the quote for its
own end.  A fresh reading of a string that meets no quote goes through the states of
numbers, and takes a number up to the byte that ends it, and this byte as well.

## Main definitions

* `Cursor.IsStringAt d input start stop` — a string between two bytes `d` stands between
  the offsets, and no unescaped `d` stands inside.

## Main results

* `State.move_eq_done`, `State.eq_start_of_move` — where a literal ends, and where a byte
  leads from the states of numbers to those of strings.
* `ByteClass.ofByte?_eq_of_ne` — contexts differ in their quotes only.
* `readNumber_terminal` — **a reading of a number ends where numbers are complete, unless
  it is resumed inside a string.**
* `readString_fresh` — **a fresh reading takes a string where its delimiter stands, and a
  number elsewhere.**
-/

namespace PathFormula

namespace Literal

variable {s t : State} {c : ByteClass} {b : UInt8} {bs : List UInt8}

/-! ### The two halves of the automaton -/

/-- The states in which numbers are complete. -/
theorem State.mem_of_endsNumber (hs : s.endsNumber) :
    s ∈ [State.zero, .integer, .fraction, .exponentDigits] := by
  cases s with
  | zero | integer | fraction | exponentDigits => decide
  | _ => cases hs

/-- A literal is complete in front of what ends numbers, or of the quote inside a string. -/
theorem State.move_eq_done (h : s.move c = .done) :
    s.endsNumber ∧ c.endsNumber ∨ s = .string ∧ c = .quote := by
  by_cases hs : s.isNumeric
  · exact .inl ((State.move_eq_done_iff hs).mp h)
  · cases s with
    | string => cases c <;> cases h; exact .inr ⟨rfl, rfl⟩
    | escape => cases c <;> cases h
    | unicode1 | unicode2 | unicode3 | unicode4 => cases c <;> cases h
    | _ => exact absurd rfl hs

/-- From the states of numbers to those of strings only the quote leads, from the start. -/
theorem State.eq_start_of_move (h : s.move c = .next t) (hs : s.isNumeric)
    (ht : t.isNumeric = false) : s = .start ∧ c = .quote ∧ t = .string := by
  cases s with
  | start =>
    cases c with
    | quote =>
      cases h
      exact ⟨rfl, rfl, rfl⟩
    | minus | zero | digit => cases h; cases ht
    | _ => cases h
  | string | escape | unicode1 | unicode2 | unicode3 | unicode4 => cases hs
  | _ => cases c <;> cases h <;> cases ht

/-- Nothing leads back to the start. -/
theorem State.move_ne_start : s.move c ≠ .next .start := by
  revert c
  cases s <;> decide

theorem Feeds.eq_nil (h : Feeds s bs .start) : bs = [] := by
  rcases List.eq_nil_or_concat' bs with rfl | ⟨front, b, rfl⟩
  · rfl
  · obtain ⟨u, -, hback⟩ := h.of_append
    cases hback with
    | cons _ hmove _ hrest =>
      cases hrest
      exact absurd hmove State.move_ne_start

/-- Within the numbers neither a quote nor a byte that no literal asks for leads on. -/
theorem State.ne_quote_of_move (h : s.move c = .next t) (ht : t.isNumeric) :
    c ≠ .quote ∧ c ≠ .other := by
  constructor <;> rintro rfl <;> cases s <;> cases h <;> cases ht

/-- Neither of them ends a number. -/
theorem ByteClass.ne_quote_of_endsNumber (hc : c.endsNumber) : c ≠ .quote ∧ c ≠ .other := by
  constructor <;> rintro rfl <;> cases hc

/-! ### The classes of the two contexts -/

/-- Contexts differ in the bytes that they take for the quote or for any other byte. -/
theorem ByteClass.ofByte?_eq_of_ne {context : Context} (h : ofByte? context b = some c)
    (hc : c ≠ .quote ∧ c ≠ .other) (context' : Context) : ofByte? context' b = some c := by
  unfold ofByte? at h ⊢
  split at h
  case h_39 =>
    split_ifs at h <;> cases h
    · exact absurd rfl hc.1
    · exact absurd rfl hc.2
  all_goals exact h

/-- Only the quote of a context is of its class. -/
theorem ByteClass.eq_quote_of_ofByte? {context : Context} (h : ofByte? context b = some .quote) :
    b = context.quote := by
  unfold ofByte? at h
  split at h
  case h_39 =>
    split_ifs at h with hcontrol hb
    · exact eq_of_beq hb
    · cases h
  all_goals cases h

theorem Context.quote_quoted {d : UInt8} (hd : Byte.isQuote d) : (quoted d).quote = d := by
  rcases Byte.eq_of_isQuote hd with rfl | rfl <;> rfl

end Literal

namespace Cursor

open Literal

variable {d b : UInt8} {s t : State} {bs passed rest : List UInt8}

/-! ### Numbers that are resumed inside a string -/

theorem endsNumber_of_endNumber {c c' : Cursor} {last : State} (h : c.endNumber s = .ok last c') :
    last.endsNumber := by
  unfold endNumber at h
  split_ifs at h with hs
  cases h
  exact hs

theorem endsNumber_of_stopNumber {strict : Bool} {c c' : Cursor} {last : State}
    (h : stopNumber strict c s = .ok last c') : last.endsNumber := by
  unfold stopNumber at h
  split_ifs at h
  exact endsNumber_of_endNumber h

/-- A reading of a number ends where numbers are complete, unless it sets out inside a
string. -/
theorem endsNumber_of_readNumberFrom {strict : Bool} {last : State} {c : Cursor}
    (hs : s ≠ .string) (h : readNumberFrom strict s passed rest = .ok last c) :
    last.endsNumber := by
  fun_induction readNumberFrom strict s passed rest with
  | case1 => exact endsNumber_of_endNumber h
  | case2 => cases h
  | case3 s passed b rest class' hb hmove =>
    cases h
    rcases State.move_eq_done hmove with ⟨hends, -⟩ | ⟨rfl, -⟩
    · exact hends
    · exact absurd rfl hs
  | case4 => exact endsNumber_of_stopNumber h
  | case5 s passed b rest class' hb next hmove hnumeric ih =>
    -- on its way the reading is in the states of numbers
    exact ih (by rintro rfl; cases hnumeric) h
  | case6 => exact endsNumber_of_stopNumber h

/-- Inside a string a reading of a number ends at once, in front of the quote or at a fault. -/
theorem readNumberFrom_string (strict : Bool) (passed rest : List UInt8) :
    readNumberFrom strict .string passed rest =
      if rest.head? = some Byte.doubleQuote then .ok .string ⟨passed, rest⟩
      else .error (symbolFault ⟨passed, rest⟩) ⟨passed, rest⟩ := by
  cases rest with
  | nil => rfl
  | cons b rest =>
    by_cases hb : b = Byte.doubleQuote
    · subst hb
      rfl
    · rw [if_neg (by simpa using hb), readNumberFrom]
      cases hclass : ByteClass.ofByte? .numeric b with
      | none => rfl
      | some c =>
        -- any other class leads to a state of strings or nowhere
        cases c with
        | quote => exact absurd (ByteClass.eq_quote_of_ofByte? hclass) hb
        | _ => cases strict <;> rfl

/-- **A reading of a number ends where numbers are complete, unless it is resumed inside a
string.**

A reading that is fresh, or resumed in any state but the one inside a string, answers one
of the four states in which numbers are complete, if it answers any.  Inside a string it
succeeds only on the double quote, which it takes for the end of a number: it stays in
front of it, and answers the state of the string. -/
theorem readNumber_terminal (c : Cursor) :
    (∀ resume, resume ≠ some .string → ∀ last c', c.readNumber resume = .ok last c' →
      last ∈ [State.zero, .integer, .fraction, .exponentDigits]) ∧
    ∀ last c', c.readNumber (some .string) = .ok last c' ↔
      last = .string ∧ c' = c ∧ c.current = some Byte.doubleQuote := by
  constructor
  · intro resume hresume last c' h
    have hs : resume.getD .start ≠ .string := by
      cases resume with
      | none => exact nofun
      | some s => exact fun hs => hresume (congrArg some hs)
    exact State.mem_of_endsNumber (endsNumber_of_readNumberFrom hs h)
  · intro last c'
    have hread : c.readNumber (some .string) =
        if c.current = some Byte.doubleQuote then .ok .string c else .error c.symbolFault c :=
      readNumberFrom_string true c.passed c.rest
    rw [hread]
    constructor
    · intro h
      split_ifs at h with hcurrent
      cases h
      exact ⟨rfl, rfl, hcurrent⟩
    · rintro ⟨rfl, rfl, hcurrent⟩
      exact if_pos hcurrent

/-- Behind a point, where no number is complete, a reading goes on to the end of the number. -/
theorem readNumber_terminal_behind_point :
    let c := (ofBytes ("2.50]".toList.map Char.toUInt8)).moveTo 2
    some State.dot ≠ some .string ∧ c.readNumber (some .dot) = .ok .fraction (c.moveTo 4) ∧
      State.fraction ∈ [State.zero, .integer, .fraction, .exponentDigits] := by
  intro c
  have hdot : some State.dot ≠ some .string := by decide
  have hread : c.readNumber (some .dot) = .ok .fraction (c.moveTo 4) := rfl
  exact ⟨hdot, hread, (readNumber_terminal c).1 _ hdot _ _ hread⟩

/-- Inside a string a quote alone is read as a number, and no number is complete there. -/
theorem exists_readNumber_not_terminal :
    ∃ c resume last c', readNumber resume c = .ok last c' ∧
      last ∉ [State.zero, .integer, .fraction, .exponentDigits] :=
  ⟨ofBytes [Byte.doubleQuote], some .string, .string, ofBytes [Byte.doubleQuote], rfl, by decide⟩

/-! ### Strings that begin as numbers -/

/-- As long as bytes lead through the states of numbers, they belong to a string as well. -/
theorem stringAfter_of_feeds (d : UInt8) (h : Feeds s bs t) : stringAfter d s bs = some t := by
  induction h with
  | nil => rfl
  | cons hb hmove ht _ ih =>
    rw [stringAfter, stringMove,
      ByteClass.ofByte?_eq_of_ne hb (State.ne_quote_of_move hmove ht) (.quoted d)]
    simp only [hmove, ih]

/-- A byte that leads a string from state to state of numbers leads a number there. -/
theorem feeds_of_stringMove (ht : t.isNumeric) (h : stringMove d s b = .next t) :
    Feeds s [b] t := by
  unfold stringMove at h
  split at h
  next c hb =>
    have hnumeric := ByteClass.ofByte?_eq_of_ne hb (State.ne_quote_of_move h ht) .numeric
    exact .cons hnumeric h ht (.nil t)
  next => cases h

/-- In the states of numbers a string is complete where a number is. -/
theorem stringMove_eq_done_iff (hs : s.isNumeric) :
    stringMove d s b = .done ↔ s.endsNumber ∧ Byte.EndsNumber true b := by
  constructor
  · intro h
    unfold stringMove at h
    split at h
    next c hb =>
      obtain ⟨hends, hc⟩ := (State.move_eq_done_iff hs).mp h
      have hnumeric := ByteClass.ofByte?_eq_of_ne hb (ByteClass.ne_quote_of_endsNumber hc) .numeric
      exact ⟨hends, (ByteClass.endsNumber_iff hnumeric).mp hc⟩
    next => cases h
  · rintro ⟨hends, hb⟩
    obtain ⟨c, hnumeric⟩ := Option.isSome_iff_exists.mp
      (isSome_ofByte?_iff.mpr hb.isSpace_of_lt)
    have hc := (ByteClass.endsNumber_iff hnumeric).mpr hb
    have hne := ByteClass.ne_quote_of_endsNumber hc
    rw [stringMove, ByteClass.ofByte?_eq_of_ne hnumeric hne (.quoted d)]
    exact (State.move_eq_done_iff hs).mpr ⟨hends, hc⟩

/-- Only its opening delimiter leads a string out of the states of numbers. -/
theorem eq_start_of_stringMove (hd : Byte.isQuote d) (hs : s.isNumeric)
    (ht : t.isNumeric = false) (h : stringMove d s b = .next t) : s = .start ∧ b = d := by
  unfold stringMove at h
  split at h
  next c hb =>
    obtain ⟨rfl, rfl, -⟩ := State.eq_start_of_move h hs ht
    exact ⟨rfl, (ByteClass.eq_quote_of_ofByte? hb).trans (Context.quote_quoted hd)⟩
  next => cases h

/-- A string between two bytes `d` stands between the offsets, and no unescaped `d` stands
inside. -/
structure IsStringAt (d : UInt8) (input : List UInt8) (start stop : Nat) : Prop where
  add_two_le : start + 2 ≤ stop
  opening : input[start]? = some d
  closing : input[stop - 1]? = some d
  not_unescapedAt : ∀ i, start < i → i < stop - 1 → ¬ UnescapedAt [d] input i

/-- A string ends behind the first unescaped delimiter that follows the opening one. -/
theorem IsStringAt.of_firstUnescaped {input : List UInt8} {start i : Nat}
    (hopening : input[start]? = some d) (h : FirstUnescaped [d] input (start + 1) i) :
    IsStringAt d input start (i + 1) where
  add_two_le := Nat.succ_le_succ h.start_le
  opening := hopening
  closing := by
    obtain ⟨⟨x, hx, hclosing⟩, -⟩ := h.unescapedAt
    obtain rfl := List.mem_singleton.mp hx
    exact hclosing
  not_unescapedAt j hj hlt := h.not_unescapedAt j hj hlt

/-- A fresh reading that begins at the delimiter takes a string. -/
theorem isStringAt_of_readString {c c' : Cursor} (hd : Byte.isQuote d) (hc : c.current = some d)
    (h : c.readString d none = .ok () c') : IsStringAt d c.input c.position c'.position := by
  obtain ⟨passed, rest⟩ := c
  obtain ⟨rest, rfl⟩ := List.head?_eq_some_iff.mp hc
  rw [readString_cons hd] at h
  obtain ⟨body, hbody, rfl, hpassed⟩ := exists_isBody_of_readStringFrom hd h
  -- the opening delimiter itself escapes nothing
  have hescaped : isEscapedAfter (d :: passed) = false := by
    rw [isEscapedAfter_cons]
    rcases Byte.eq_of_isQuote hd with rfl | rfl <;> rfl
  have hfirst := firstUnescaped_of_isBody c'.rest hd hescaped hbody
  have hinput : (d :: passed).reverse ++ (body ++ d :: c'.rest) =
      input ⟨passed, d :: (body ++ d :: c'.rest)⟩ := by simp [input]
  have hposition : c'.position = (d :: passed).length + body.length + 1 := by
    rw [position, hpassed]
    simp only [List.length_cons, List.length_append, List.length_reverse]
    omega
  rw [hinput] at hfirst
  rw [hposition]
  exact .of_firstUnescaped ((getElem?_position _).trans hc) hfirst

/-- A number is read as a string, with the space or delimiter behind it. -/
theorem readString_of_isNumber {c : Cursor} {number : List UInt8} (d : UInt8)
    (hnumber : IsNumber number) (hb : Byte.EndsNumber true b)
    (hrest : number ++ [b] <+: c.rest) :
    c.readString d none = .ok () (c.moveTo (c.position + (number ++ [b]).length)) := by
  obtain ⟨passed, rest⟩ := c
  obtain ⟨after, rfl⟩ := hrest
  obtain ⟨t, hends, hfeeds⟩ := isNumber_iff_feeds.mp hnumber
  have hdone : stringMove d t b = .done :=
    (stringMove_eq_done_iff (State.isNumeric_of_endsNumber hends)).mpr ⟨hends, hb⟩
  rw [moveTo_position_add, readString, Option.getD_none, List.append_assoc,
    readStringFrom_of_stringAfter (stringAfter_of_feeds d hfeeds), List.singleton_append,
    readStringFrom, hdone]
  simp

/-- A fresh reading that does not begin at the delimiter takes nothing else. -/
theorem exists_isNumber_of_readString {c c' : Cursor} (hd : Byte.isQuote d)
    (hc : c.current ≠ some d) (h : c.readString d none = .ok () c') :
    ∃ number b, IsNumber number ∧ Byte.EndsNumber true b ∧ number ++ [b] <+: c.rest := by
  obtain ⟨passed, rest⟩ := c
  obtain ⟨front, after, t, rfl, hfront, hafter⟩ := exists_feeds_append .start rest
  have ht : t.isNumeric := hfront.isNumeric rfl
  rw [readString, Option.getD_none, readStringFrom_of_stringAfter (stringAfter_of_feeds d hfront)]
    at h
  cases after with
  | nil => cases h
  | cons b after =>
    rw [readStringFrom] at h
    cases hmove : stringMove d t b with
    | next u =>
      by_cases hu : u.isNumeric
      · exact absurd (feeds_of_stringMove hu hmove) (hafter b rfl u)
      · -- then nothing has been passed yet
        obtain ⟨rfl, rfl⟩ := eq_start_of_stringMove hd ht (by simpa using hu) hmove
        obtain rfl := hfront.eq_nil
        exact absurd rfl hc
    | done =>
      obtain ⟨hends, hb⟩ := (stringMove_eq_done_iff ht).mp hmove
      exact ⟨front, b, hfront.isNumber_iff.mpr hends, hb, after, by simp⟩
    | invalid =>
      rw [hmove] at h
      cases h

/-- **A fresh reading takes a string where its delimiter stands, and a number elsewhere.**

Let the delimiter be either quote.  If the cursor stands on it and the reading succeeds, the
cursor has come behind a string: two bytes at least, the delimiter at both ends, and none
inside that is not escaped.  If it stands elsewhere, the reading succeeds exactly if a
number with space, a comma, a closing bracket or a closing brace behind it stands there,
and takes both. -/
theorem readString_fresh (hd : Byte.isQuote d) (c : Cursor) :
    (c.current = some d → ∀ c', c.readString d none = .ok () c' →
      IsStringAt d c.input c.position c'.position) ∧
    (c.current ≠ some d → ∀ c', c.readString d none = .ok () c' ↔
      ∃ number b, IsNumber number ∧ (Byte.isSpace b ∨ Byte.isDelimiter b) ∧
        number ++ [b] <+: c.rest ∧ c' = c.moveTo (c.position + (number ++ [b]).length)) := by
  refine ⟨fun hc c' h => isStringAt_of_readString hd hc h, fun hc c' => ⟨?_, ?_⟩⟩
  · intro h
    obtain ⟨number, b, hnumber, hb, hrest⟩ := exists_isNumber_of_readString hd hc h
    rw [readString_of_isNumber d hnumber hb hrest] at h
    obtain ⟨-, rfl⟩ := EStateM.Result.ok.inj h
    exact ⟨number, b, hnumber, hb, hrest, rfl⟩
  · rintro ⟨number, b, hnumber, hb, hrest, rfl⟩
    exact readString_of_isNumber d hnumber hb hrest

/-- A string with an escaped delimiter in it, behind a number. -/
theorem readString_fresh_behind_number :
    let c := (ofBytes ("7'\\'' ".toList.map Char.toUInt8)).moveTo 1
    Byte.isQuote Byte.singleQuote ∧ c.current = some Byte.singleQuote ∧
      c.readString Byte.singleQuote none = .ok () (c.moveTo 5) ∧
      IsStringAt Byte.singleQuote c.input 1 5 := by
  intro c
  have hc : c.current = some Byte.singleQuote := rfl
  have hread : c.readString Byte.singleQuote none = .ok () (c.moveTo 5) := rfl
  exact ⟨rfl, hc, hread, (readString_fresh rfl c).1 hc _ hread⟩

/-- A number is no string, although it is taken for one in front of a comma. -/
theorem exists_readString_not_isStringAt :
    ∃ (d : UInt8) (c c' : Cursor), Byte.isQuote d ∧ c.readString d none = .ok () c' ∧
      ¬ IsStringAt d c.input c.position c'.position := by
  let c := ofBytes ("7,\"".toList.map Char.toUInt8)
  refine ⟨Byte.doubleQuote, c, c.moveTo 2, rfl, rfl, fun h => ?_⟩
  exact absurd h.opening (by decide)

end Cursor

end PathFormula
