import Mathlib.Data.FinEnum
import PathFormula.Proofs.Boundary

/-!
# The grammar of operands

Numbers, quoted strings, path references and names as sets of byte sequences,
said without any recogniser.  Over the bytes of such a set the recogniser passes, from
where they begin to where they end.

## Main definitions

* `EndsWord rest` — only space or nothing follows directly.
* `Literal.IsNumber`, `Literal.IsQuoted` — the numbers and the quoted strings.
* `Literal.Numeral` — a number by its parts, with the state in which it is complete.
* `Cursor.stringAfter d s bs` — the state that bytes lead a string to.
* `IsReference` — the path references that begin with a root.
* `Role.describes` — the bytes of a role.

## Main results

* `Role.ofByte_eq_iff` — which byte has which role.
* `Literal.Numeral.feeds`, `Cursor.readString_of_isBody`, `Cursor.readItemsFrom_of_isItems` —
  the way through a number, a string and the items of a reference.
-/

namespace PathFormula

/-- What follows a word: space, or nothing. -/
def EndsWord (rest : List UInt8) : Prop := ∀ b ∈ rest.head?, Byte.isSpace b

theorem endsWord_nil : EndsWord [] := by simp [EndsWord]

theorem endsWord_cons {b : UInt8} (hb : Byte.isSpace b) (rest : List UInt8) :
    EndsWord (b :: rest) := by
  intro b' hb'
  cases hb'
  exact hb

namespace Literal

/-! ### Numbers -/

/-- One digit or more. -/
def IsDigits (bs : List UInt8) : Prop := bs ≠ [] ∧ ∀ b ∈ bs, Byte.isDigit b

/-- Digits behind a point, or nothing. -/
inductive IsFraction : List UInt8 → Prop
  | nil : IsFraction []
  | point {ds : List UInt8} (hds : IsDigits ds) : IsFraction ('.'.toUInt8 :: ds)

/-- Digits behind the letter `e`, which may have a sign, or nothing. -/
inductive IsExponent : List UInt8 → Prop
  | nil : IsExponent []
  | unsigned {e : UInt8} {ds : List UInt8} (he : e = 'e'.toUInt8 ∨ e = 'E'.toUInt8)
    (hds : IsDigits ds) : IsExponent (e :: ds)
  | signed {e sign : UInt8} {ds : List UInt8} (he : e = 'e'.toUInt8 ∨ e = 'E'.toUInt8)
    (hsign : Byte.isSign sign) (hds : IsDigits ds) : IsExponent (e :: sign :: ds)

/-- The numbers `-?[0-9]+(\.[0-9]+)?([eE][+-]?[0-9]+)?`. -/
inductive IsNumber : List UInt8 → Prop
  | unsigned {whole fraction exponent : List UInt8} (hwhole : IsDigits whole)
    (hfraction : IsFraction fraction) (hexponent : IsExponent exponent) :
    IsNumber (whole ++ (fraction ++ exponent))
  | signed {whole fraction exponent : List UInt8} (hwhole : IsDigits whole)
    (hfraction : IsFraction fraction) (hexponent : IsExponent exponent) :
    IsNumber ('-'.toUInt8 :: (whole ++ (fraction ++ exponent)))

/-- A number by its parts. -/
structure Numeral where
  /-- Whether a minus stands in front. -/
  negative : Bool
  /-- The digits in front of the point. -/
  whole : List UInt8
  /-- The point with the digits behind it, or nothing. -/
  fraction : List UInt8
  /-- The letter with what belongs to it, or nothing. -/
  exponent : List UInt8
  isDigits_whole : IsDigits whole
  isFraction_fraction : IsFraction fraction
  isExponent_exponent : IsExponent exponent

namespace Numeral

/-- How the number is written. -/
def bytes (m : Numeral) : List UInt8 :=
  (if m.negative then ['-'.toUInt8] else []) ++ (m.whole ++ (m.fraction ++ m.exponent))

/-- The state in which the number is complete: that of its last part, where a single zero
is told from other digits. -/
def state (m : Numeral) : State :=
  if m.exponent ≠ [] then .exponentDigits
  else if m.fraction ≠ [] then .fraction
  else if m.whole = ['0'.toUInt8] then .zero
  else .integer

theorem endsNumber_state (m : Numeral) : m.state.endsNumber := by
  unfold state
  split_ifs <;> rfl

end Numeral

/-- A number has parts. -/
theorem isNumber_iff_exists_numeral {bs : List UInt8} :
    IsNumber bs ↔ ∃ m : Numeral, m.bytes = bs := by
  constructor
  · intro h
    cases h with
    | unsigned hwhole hfraction hexponent =>
      exact ⟨⟨false, _, _, _, hwhole, hfraction, hexponent⟩, rfl⟩
    | signed hwhole hfraction hexponent =>
      exact ⟨⟨true, _, _, _, hwhole, hfraction, hexponent⟩, rfl⟩
  · rintro ⟨⟨negative, whole, fraction, exponent, hwhole, hfraction, hexponent⟩, rfl⟩
    cases negative with
    | false =>
      change IsNumber (whole ++ (fraction ++ exponent))
      exact .unsigned hwhole hfraction hexponent
    | true =>
      change IsNumber ('-'.toUInt8 :: (whole ++ (fraction ++ exponent)))
      exact .signed hwhole hfraction hexponent

/-- The bytes lead from state to state, and all these are states of numbers. -/
inductive Feeds : State → List UInt8 → State → Prop
  | nil (s : State) : Feeds s [] s
  | cons {s t u : State} {b : UInt8} {bs : List UInt8} {c : ByteClass}
    (hb : ByteClass.ofByte? .numeric b = some c) (hmove : s.move c = .next t)
    (ht : t.isNumeric) (hbs : Feeds t bs u) : Feeds s (b :: bs) u

theorem Feeds.trans {s t u : State} {bs cs : List UInt8} (h : Feeds s bs t) (h' : Feeds t cs u) :
    Feeds s (bs ++ cs) u := by
  induction h with
  | nil => exact h'
  | cons hb hmove ht _ ih => exact .cons hb hmove ht (ih h')

theorem ofByte?_of_isDigit : ∀ {b : UInt8}, Byte.isDigit b →
    ByteClass.ofByte? .numeric b = some .zero ∨ ByteClass.ofByte? .numeric b = some .digit := by
  decide +kernel

/-- Digits keep a state that they lead back to. -/
theorem feeds_digits {s : State} {ds : List UInt8} (hzero : s.move .zero = .next s)
    (hdigit : s.move .digit = .next s) (hs : s.isNumeric) (hds : ∀ b ∈ ds, Byte.isDigit b) :
    Feeds s ds s := by
  induction ds with
  | nil => exact .nil s
  | cons b ds ih =>
    have ih := ih fun x hx => hds x (List.mem_cons_of_mem b hx)
    rcases ofByte?_of_isDigit (hds b List.mem_cons_self) with hb | hb
    · exact .cons hb hzero hs ih
    · exact .cons hb hdigit hs ih

/-- Where a digit is due, all digits can be read. -/
theorem feeds_isDigits {s t : State} {ds : List UInt8} (hzero : s.move .zero = .next t)
    (hdigit : s.move .digit = .next t) (htzero : t.move .zero = .next t)
    (htdigit : t.move .digit = .next t) (ht : t.isNumeric) (hds : IsDigits ds) :
    Feeds s ds t := by
  obtain ⟨hne, hds⟩ := hds
  cases ds with
  | nil => exact absurd rfl hne
  | cons b ds =>
    have hmore := feeds_digits htzero htdigit ht fun x hx => hds x (List.mem_cons_of_mem b hx)
    rcases ofByte?_of_isDigit (hds b List.mem_cons_self) with hb | hb
    · exact .cons hb hzero ht hmore
    · exact .cons hb hdigit ht hmore

theorem eq_zero_of_ofByte? {b : UInt8} (h : ByteClass.ofByte? .numeric b = some .zero) :
    b = '0'.toUInt8 := by
  unfold ByteClass.ofByte? at h
  split at h
  case h_13 hb => exact Byte.eq_of_ofUInt8 hb
  case h_39 => split_ifs at h <;> cases h
  all_goals cases h

/-- The digits in front of the point. -/
theorem feeds_whole {s : State} {ds : List UInt8} (hs : s = .start ∨ s = .minus)
    (hds : IsDigits ds) : Feeds s ds (if ds = ['0'.toUInt8] then .zero else .integer) := by
  obtain ⟨hne, hds⟩ := hds
  cases ds with
  | nil => exact absurd rfl hne
  | cons b ds =>
    have hmore : ∀ x ∈ ds, Byte.isDigit x := fun x hx => hds x (List.mem_cons_of_mem b hx)
    rcases ofByte?_of_isDigit (hds b List.mem_cons_self) with hb | hb
    · -- a leading zero is a state of its own, but more digits may follow it
      obtain rfl := eq_zero_of_ofByte? hb
      have hzero : s.move .zero = .next .zero := by rcases hs with rfl | rfl <;> rfl
      cases ds with
      | nil => exact .cons hb hzero rfl (.nil _)
      | cons b' ds =>
        rw [if_neg (by simp)]
        refine .cons hb hzero rfl ?_
        exact feeds_isDigits rfl rfl rfl rfl rfl ⟨by simp, hmore⟩
    · have hdigit : s.move .digit = .next .integer := by rcases hs with rfl | rfl <;> rfl
      rw [if_neg (by rintro ⟨⟩; cases hb)]
      exact .cons hb hdigit rfl (feeds_digits rfl rfl rfl hmore)

theorem feeds_fraction {s : State} {bs : List UInt8} (hs : s = .zero ∨ s = .integer)
    (h : IsFraction bs) : Feeds s bs (if bs ≠ [] then .fraction else s) := by
  cases h with
  | nil => exact .nil s
  | point hds =>
    have hpoint : s.move .point = .next .dot := by rcases hs with rfl | rfl <;> rfl
    exact .cons rfl hpoint rfl (feeds_isDigits rfl rfl rfl rfl rfl hds)

theorem ofByte?_of_isSign {b : UInt8} (hb : Byte.isSign b) :
    ByteClass.ofByte? .numeric b = some .plus ∨ ByteClass.ofByte? .numeric b = some .minus := by
  rcases Byte.eq_of_isSign hb with rfl | rfl
  · exact .inl rfl
  · exact .inr rfl

theorem feeds_exponent {s : State} {bs : List UInt8}
    (hs : s = .zero ∨ s = .integer ∨ s = .fraction) (h : IsExponent bs) :
    Feeds s bs (if bs ≠ [] then .exponentDigits else s) := by
  -- either letter leads to the same state, from wherever the number could end
  have letter {e : UInt8} {ds : List UInt8} {t : State} (he : e = 'e'.toUInt8 ∨ e = 'E'.toUInt8)
      (hds : Feeds .exponent ds t) : Feeds s (e :: ds) t := by
    rcases he with rfl | rfl
    · exact .cons (c := .lowerE) rfl (by rcases hs with rfl | rfl | rfl <;> rfl) rfl hds
    · exact .cons (c := .upperE) rfl (by rcases hs with rfl | rfl | rfl <;> rfl) rfl hds
  cases h with
  | nil => exact .nil s
  | unsigned he hds => exact letter he (feeds_isDigits rfl rfl rfl rfl rfl hds)
  | signed he hsign hds =>
    refine letter he ?_
    have hdigits : Feeds .exponentSign _ .exponentDigits :=
      feeds_isDigits rfl rfl rfl rfl rfl hds
    rcases ofByte?_of_isSign hsign with hb | hb
    · exact .cons hb rfl rfl hdigits
    · exact .cons hb rfl rfl hdigits

/-- A number leads from the start to the state in which it is complete. -/
theorem Numeral.feeds (m : Numeral) : Feeds .start m.bytes m.state := by
  obtain ⟨negative, whole, fraction, exponent, hwhole, hfraction, hexponent⟩ := m
  have hunsigned {s : State} (hs : s = .start ∨ s = .minus) :
      Feeds s (whole ++ (fraction ++ exponent))
        (state ⟨negative, whole, fraction, exponent, hwhole, hfraction, hexponent⟩) := by
    have hstate : (if whole = ['0'.toUInt8] then State.zero else .integer) = .zero ∨
        (if whole = ['0'.toUInt8] then State.zero else .integer) = .integer := by
      split_ifs <;> simp
    refine (feeds_whole hs hwhole).trans ((feeds_fraction hstate hfraction).trans ?_)
    refine feeds_exponent ?_ hexponent
    split_ifs <;> simp
  cases negative with
  | false => exact hunsigned (.inl rfl)
  | true => exact .cons (c := .minus) rfl rfl rfl (hunsigned (.inr rfl))

/-- A number leads from the start to a state in which numbers are complete. -/
theorem exists_feeds_of_isNumber {bs : List UInt8} (h : IsNumber bs) :
    ∃ t, t.endsNumber ∧ Feeds .start bs t := by
  obtain ⟨m, rfl⟩ := isNumber_iff_exists_numeral.mp h
  exact ⟨m.state, m.endsNumber_state, m.feeds⟩

end Literal

namespace Cursor

open Literal

/-- A reading goes on in the state that the bytes lead to. -/
theorem readNumberFrom_of_feeds {s t : State} {bs : List UInt8} (h : Feeds s bs t)
    (strict : Bool) (passed rest : List UInt8) :
    readNumberFrom strict s passed (bs ++ rest) =
      readNumberFrom strict t (bs.reverse ++ passed) rest := by
  induction h generalizing passed with
  | nil => rfl
  | cons hb hmove ht _ ih =>
    rw [List.cons_append, readNumberFrom, hb]
    simp only [hmove, ht, if_true]
    rw [ih, List.reverse_cons, List.append_assoc]
    rfl

end Cursor

/-! ### Strings -/

/-- A hexadecimal digit. -/
def Byte.isHexDigit (b : UInt8) : Bool :=
  isDigit b || (0x41 ≤ b && b ≤ 0x46) || (0x61 ≤ b && b ≤ 0x66)

/-- The byte may stand behind a backslash: the delimiter, or one of `\ / b f n r t`. -/
def Byte.IsEscaped (delimiter b : UInt8) : Prop :=
  b = delimiter ∨ b ∈ ['\\', '/', 'b', 'f', 'n', 'r', 't'].map Char.toUInt8

instance (delimiter b : UInt8) : Decidable (Byte.IsEscaped delimiter b) :=
  inferInstanceAs (Decidable (_ ∨ _))

namespace Literal

/-- What may stand between two delimiters: plain bytes and escapes. -/
inductive IsBody (delimiter : UInt8) : List UInt8 → Prop
  | nil : IsBody delimiter []
  | plain {b : UInt8} {bs : List UInt8} (hb : 0x20 ≤ b) (hdelimiter : b ≠ delimiter)
    (hbackslash : b ≠ Byte.backslash) (hbs : IsBody delimiter bs) : IsBody delimiter (b :: bs)
  | escape {b : UInt8} {bs : List UInt8} (hb : Byte.IsEscaped delimiter b)
    (hbs : IsBody delimiter bs) : IsBody delimiter (Byte.backslash :: b :: bs)
  | unicode {w x y z : UInt8} {bs : List UInt8} (hw : Byte.isHexDigit w) (hx : Byte.isHexDigit x)
    (hy : Byte.isHexDigit y) (hz : Byte.isHexDigit z) (hbs : IsBody delimiter bs) :
    IsBody delimiter (Byte.backslash :: 'u'.toUInt8 :: w :: x :: y :: z :: bs)

/-- A body between two equal quotes. -/
inductive IsQuoted : List UInt8 → Prop
  | intro {delimiter : UInt8} {body : List UInt8} (hdelimiter : Byte.isQuote delimiter)
    (hbody : IsBody delimiter body) : IsQuoted (delimiter :: (body ++ [delimiter]))

/-- A quote is ASCII. -/
theorem lt_of_isQuote {d : UInt8} (hd : Byte.isQuote d) : d < 0x80 := by
  rcases Byte.eq_of_isQuote hd with rfl | rfl <;> decide

theorem lt_of_isEscaped {d b : UInt8} (hd : Byte.isQuote d) (hb : Byte.IsEscaped d b) :
    b < 0x80 := by
  have hletters : (['\\', '/', 'b', 'f', 'n', 'r', 't'].map Char.toUInt8).all (· < 0x80) := by
    decide
  rcases hb with rfl | hb
  · exact lt_of_isQuote hd
  · simpa using List.all_eq_true.mp hletters b hb

theorem lt_of_isHexDigit {b : UInt8} (hb : Byte.isHexDigit b) : b < 0x80 := by
  simp only [Byte.isHexDigit, Byte.isDigit, Bool.or_eq_true, Bool.and_eq_true,
    decide_eq_true_eq] at hb
  -- each of the three ranges ends within ASCII
  rcases hb with (hb | hb) | hb
  · exact UInt8.lt_of_le_of_lt hb.2 (by decide)
  · exact UInt8.lt_of_le_of_lt hb.2 (by decide)
  · exact UInt8.lt_of_le_of_lt hb.2 (by decide)

end Literal

namespace Cursor

open Literal

/-- What a byte does inside a string, what it does behind a backslash, and whether it
counts as a hexadecimal digit. -/
theorem stringMove_states {d : UInt8} (hd : Byte.isQuote d) (b : UInt8) :
    (stringMove d .string b =
      if b = d then .done
      else if b = Byte.backslash then .next .escape
      else if b < 0x20 then .invalid
      else .next .string) ∧
    (stringMove d .escape b =
      if Byte.IsEscaped d b then .next .string
      else if b = 'u'.toUInt8 then .next .unicode1
      else .invalid) ∧
    (ByteClass.ofByte? (.quoted d) b).any ByteClass.isHex = Byte.isHexDigit b := by
  by_cases hb : b < 0x80
  · revert b
    rcases Byte.eq_of_isQuote hd with rfl | rfl <;> decide +kernel
  · -- outside ASCII there is but one class, which only the string itself takes
    have hclass : ByteClass.ofByte? (.quoted d) b = some .other :=
      ByteClass.ofByte?_of_le _ (UInt8.not_lt.mp hb)
    have hne {a : UInt8} (ha : a < 0x80) : b ≠ a := by
      rintro rfl
      exact hb ha
    have hcontrol : ¬ b < 0x20 := fun h => hb (UInt8.lt_trans h (by decide))
    have hescaped : ¬ Byte.IsEscaped d b := mt (lt_of_isEscaped hd) hb
    have hhex : Byte.isHexDigit b = false := by simpa using mt lt_of_isHexDigit hb
    rw [stringMove, stringMove, hclass, if_neg (hne (lt_of_isQuote hd)), if_neg (hne (by decide)),
      if_neg hcontrol, if_neg hescaped, if_neg (hne (by decide)), hhex]
    exact ⟨rfl, rfl, rfl⟩

/-- What a byte does inside a string. -/
theorem stringMove_string {d : UInt8} (hd : Byte.isQuote d) (b : UInt8) :
    stringMove d .string b =
      if b = d then .done
      else if b = Byte.backslash then .next .escape
      else if b < 0x20 then .invalid
      else .next .string :=
  (stringMove_states hd b).1

/-- What a byte does behind a backslash. -/
theorem stringMove_escape {d : UInt8} (hd : Byte.isQuote d) (b : UInt8) :
    stringMove d .escape b =
      if Byte.IsEscaped d b then .next .string
      else if b = 'u'.toUInt8 then .next .unicode1
      else .invalid :=
  (stringMove_states hd b).2.1

/-- What a byte does where a hexadecimal digit is due. -/
theorem stringMove_unicode {d : UInt8} {s t : State} (hd : Byte.isQuote d)
    (hs : ∀ c, s.move c = State.moveInUnicode t c) (b : UInt8) :
    stringMove d s b = if Byte.isHexDigit b then .next t else .invalid := by
  rw [stringMove, ← (stringMove_states hd b).2.2]
  cases ByteClass.ofByte? (.quoted d) b with
  | none => rfl
  | some c => exact hs c

/-- The state that the bytes lead a string to, if they all belong to it. -/
def stringAfter (d : UInt8) : State → List UInt8 → Option State
  | s, [] => some s
  | s, b :: bs =>
    match stringMove d s b with
    | .next t => stringAfter d t bs
    | .done | .invalid => none

/-- A reading goes on in the state that the bytes lead to. -/
theorem readStringFrom_of_stringAfter {d : UInt8} {s t : State} {bs : List UInt8}
    (h : stringAfter d s bs = some t) (passed rest : List UInt8) :
    readStringFrom d s passed (bs ++ rest) = readStringFrom d t (bs.reverse ++ passed) rest := by
  induction bs generalizing s passed with
  | nil =>
    cases h
    rfl
  | cons b bs ih =>
    rw [stringAfter] at h
    rw [List.cons_append, readStringFrom]
    cases hmove : stringMove d s b with
    | next u =>
      rw [hmove] at h
      rw [List.reverse_cons, List.append_assoc]
      exact ih h (b :: passed)
    | done =>
      rw [hmove] at h
      cases h
    | invalid =>
      rw [hmove] at h
      cases h

/-- A body leads back into the string. -/
theorem stringAfter_of_isBody {d : UInt8} {body : List UInt8} (hd : Byte.isQuote d)
    (h : IsBody d body) : stringAfter d .string body = some .string := by
  have hbackslash : Byte.backslash ≠ d := by rcases Byte.eq_of_isQuote hd with rfl | rfl <;> decide
  have hu : ¬ Byte.IsEscaped d 'u'.toUInt8 := by
    rcases Byte.eq_of_isQuote hd with rfl | rfl <;> decide
  induction h with
  | nil => rfl
  | plain hb hne hplain _ ih =>
    simpa [stringAfter, stringMove_string hd, hne, hplain, UInt8.not_lt.mpr hb] using ih
  | escape hb _ ih =>
    simpa [stringAfter, stringMove_string hd, stringMove_escape hd, hbackslash, hb] using ih
  | unicode hw hx hy hz _ ih =>
    have hdigit {s t : State} (hs : ∀ c, s.move c = State.moveInUnicode t c) {b : UInt8}
        (hb : Byte.isHexDigit b) : stringMove d s b = .next t := by
      rw [stringMove_unicode hd hs, if_pos hb]
    simpa [stringAfter, stringMove_string hd, stringMove_escape hd, hbackslash, hu,
      hdigit (s := .unicode1) (fun _ => rfl) hw, hdigit (s := .unicode2) (fun _ => rfl) hx,
      hdigit (s := .unicode3) (fun _ => rfl) hy,
      hdigit (s := .unicode4) (fun _ => rfl) hz] using ih

/-- A body is passed over with the delimiter behind it. -/
theorem readStringFrom_of_isBody {d : UInt8} {body : List UInt8} (hd : Byte.isQuote d)
    (h : IsBody d body) (passed rest : List UInt8) :
    readStringFrom d .string passed (body ++ d :: rest) =
      .ok () ⟨d :: (body.reverse ++ passed), rest⟩ := by
  rw [readStringFrom_of_stringAfter (stringAfter_of_isBody hd h), readStringFrom,
    stringMove_string hd, if_pos rfl]

/-- At its opening delimiter, a string is read from behind it on. -/
theorem readString_cons {d : UInt8} (hd : Byte.isQuote d) (passed rest : List UInt8) :
    readString d none ⟨passed, d :: rest⟩ = readStringFrom d .string (d :: passed) rest := by
  rw [readString, Option.getD_none, readStringFrom, stringMove_start hd]

/-- A string is taken whole. -/
theorem readString_of_isBody {d : UInt8} {body : List UInt8} (hd : Byte.isQuote d)
    (h : IsBody d body) (rest : List UInt8) :
    (ofBytes (d :: (body ++ d :: rest))).readString d none =
      .ok () ⟨d :: (body.reverse ++ [d]), rest⟩ := by
  rw [ofBytes, readString_cons hd, readStringFrom_of_isBody hd h]

end Cursor

/-! ### References -/

/-- The byte that opens a bracket. -/
def Bracket.opener : Bracket → UInt8
  | square => '['.toUInt8
  | round => '('.toUInt8

/-- The byte that closes a bracket. -/
def Bracket.closer : Bracket → UInt8
  | square => ']'.toUInt8
  | round => ')'.toUInt8

/-- The byte may stand inside brackets only: it is no quote, no bracket and no
reference byte. -/
def Byte.isFiller (b : UInt8) : Bool :=
  !(isQuote b || isReference b || ['[', ']', '(', ')'].any (·.toUInt8 == b))

/-- The items of a reference.  Inside brackets, any other byte may stand between
them. -/
inductive IsItems : Bool → List UInt8 → Prop
  | nil (inside : Bool) : IsItems inside []
  | reference {inside : Bool} {b : UInt8} {bs : List UInt8} (hb : Byte.isReference b)
    (hbs : IsItems inside bs) : IsItems inside (b :: bs)
  | key {inside : Bool} {delimiter : UInt8} {body bs : List UInt8}
    (hdelimiter : Byte.isQuote delimiter) (hbody : Literal.IsBody delimiter body)
    (hbs : IsItems inside bs) : IsItems inside (delimiter :: (body ++ delimiter :: bs))
  | bracket {inside : Bool} {inner bs : List UInt8} (kind : Bracket) (hinner : IsItems true inner)
    (hbs : IsItems inside bs) : IsItems inside (kind.opener :: (inner ++ kind.closer :: bs))
  | filler {b : UInt8} {bs : List UInt8} (hb : Byte.isFiller b) (hbs : IsItems true bs) :
    IsItems true (b :: bs)

/-- A root with items behind it. -/
inductive IsReference : List UInt8 → Prop
  | intro {b : UInt8} {bs : List UInt8} (hb : b = '$'.toUInt8 ∨ b = '@'.toUInt8)
    (hbs : IsItems false bs) : IsReference (b :: bs)

/-- The bytes of a role. -/
def Role.describes : Role → UInt8 → Bool
  | quote, b => Byte.isQuote b
  | opening kind, b => b == kind.opener
  | closing kind, b => b == kind.closer
  | reference, b => Byte.isReference b
  | other, b => Byte.isFiller b

theorem Role.describes_ofByte (b : UInt8) : (ofByte b).describes b := by
  unfold ofByte
  split
  case h_5 hsquare hround hsquare' hround' =>
    split_ifs with hquote hreference
    · exact hquote
    · exact hreference
    · -- a byte that is no bracket has none of the four characters
      have hbracket {c : Char} (hc : Char.ofUInt8 c.toUInt8 = c) (h : Char.ofUInt8 b ≠ c) :
          (c.toUInt8 == b) = false := by
        rw [beq_eq_false_iff_ne]
        rintro rfl
        exact h hc
      simp [describes, Byte.isFiller, hquote, hreference, hbracket rfl hsquare, hbracket rfl hround,
        hbracket rfl hsquare', hbracket rfl hround']
  all_goals next h =>
    rw [Byte.eq_of_ofUInt8 h]
    rfl

theorem Role.ofByte_of_isReference {b : UInt8} (hb : Byte.isReference b) :
    Role.ofByte b = .reference := by
  unfold Role.ofByte
  split
  case h_5 =>
    have hquote : ¬ Byte.isQuote b := by
      intro hquote
      rcases Byte.eq_of_isQuote hquote with rfl | rfl <;> cases hb
    rw [if_neg hquote, if_pos hb]
  all_goals next h =>
    rw [Byte.eq_of_ofUInt8 h] at hb
    cases hb

theorem Role.ofByte_of_isQuote {b : UInt8} (hb : Byte.isQuote b) : Role.ofByte b = .quote := by
  rcases Byte.eq_of_isQuote hb with rfl | rfl <;> rfl

theorem Role.ofByte_bracket (kind : Bracket) :
    Role.ofByte kind.opener = .opening kind ∧ Role.ofByte kind.closer = .closing kind := by
  cases kind <;> exact ⟨rfl, rfl⟩

theorem Role.ofByte_of_isFiller {b : UInt8} (hb : Byte.isFiller b) : Role.ofByte b = .other := by
  unfold Role.ofByte
  split
  case h_5 => simp_all [Byte.isFiller]
  all_goals next h =>
    rw [Byte.eq_of_ofUInt8 h] at hb
    cases hb

/-- A byte has the role that describes it. -/
theorem Role.ofByte_eq_iff (role : Role) (b : UInt8) : ofByte b = role ↔ role.describes b := by
  constructor
  · rintro rfl
    exact describes_ofByte b
  · intro h
    cases role with
    | quote => exact ofByte_of_isQuote h
    | opening kind => rw [eq_of_beq h, (ofByte_bracket kind).1]
    | closing kind => rw [eq_of_beq h, (ofByte_bracket kind).2]
    | reference => exact ofByte_of_isReference h
    | other => exact ofByte_of_isFiller h

namespace Cursor

open Literal

/-- Items are passed over, and the brackets around them stay open. -/
theorem readItemsFrom_of_isItems {inside : Bool} {bs : List UInt8} (h : IsItems inside bs)
    {nest : List Bracket} (hnest : inside = true → nest ≠ []) (passed rest : List UInt8) :
    readItemsFrom nest none passed (bs ++ rest) =
      readItemsFrom nest none (bs.reverse ++ passed) rest := by
  induction h generalizing nest passed rest with
  | nil => rfl
  | reference hb _ ih =>
    rw [List.cons_append, readItemsFrom, Role.ofByte_of_isReference hb]
    simp [ih hnest]
  | key hd hbody _ ih =>
    rw [List.cons_append, readItemsFrom, Role.ofByte_of_isQuote hd]
    simp only [List.append_assoc, List.cons_append]
    rw [readItemsFrom_key, readStringFrom_of_isBody hd hbody]
    simp [ih hnest]
  | bracket kind _ _ ihinner ih =>
    obtain ⟨hopener, hcloser⟩ := Role.ofByte_bracket kind
    rw [List.cons_append, readItemsFrom, hopener]
    simp only [List.append_assoc, List.cons_append]
    rw [ihinner (by simp), readItemsFrom, hcloser]
    simp [ih hnest]
  | filler hb _ ih =>
    have hopen : nest.isEmpty = false := by simpa using hnest rfl
    rw [List.cons_append, readItemsFrom, Role.ofByte_of_isFiller hb]
    simp [hopen, ih hnest]

end Cursor

end PathFormula
