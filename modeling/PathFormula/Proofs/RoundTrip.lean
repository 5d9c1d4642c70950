import PathFormula.Proofs.Agreement
import PathFormula.Proofs.Expression

/-!
# Writing a text in quotes

Every text can be written as a string: put in quotes it is a single token, and what
this token stands for is the text again.  Nothing in the text can end the token early,
since each of its characters is written as one item.

## Main definitions

* `Quoted.Value.Means c` — a value that becomes the character `c`, whatever comes next.

## Main results

* `exists_isItems_encode` — what is written is a row of items that stand for the text.
* `isQuoted_encode` — so it is a string.
* `Reading.ofText_of_standsBefore` — a text that is a single lexeme is read as it.
* `ofFormula_encode` — **every text survives being written as a string.**
-/

namespace PathFormula

open Literal Quoted

namespace Quoted

variable {d : UInt8} {c : Char} {cs done : List Char} {v : Value} {vs : List Value}

/-! ### A character as an item -/

/-- The value becomes this character, whatever comes next: it is the character, or its
unit, which is no half of one. -/
def Value.Means (c : Char) : Value → Prop
  | .char c' => c' = c
  | .unit u => u = c.toNat ∧ u < 0xD800

theorem joinOnto_cons (hv : v.Means c) (done : List Char) (vs : List Value) :
    joinOnto done (v :: vs) = joinOnto (c :: done) vs := by
  cases v with
  | char c' =>
    obtain rfl : c' = c := hv
    rw [joinOnto]
  | unit u =>
    obtain ⟨rfl, hlt⟩ := hv
    have hhigh : Utf16.isHigh c.toNat = false := by
      simp [Utf16.isHigh]
      omega
    have hlow : Utf16.isLow c.toNat = false := by
      simp [Utf16.isLow]
      omega
    have hsingle : Utf16.single c.toNat = c := by
      rw [Utf16.single, hhigh, hlow]
      exact Char.ofNat_toNat c
    rw [joinOnto_unit done fun h => absurd h (by simp [hhigh]), hsingle]

/-- The two digits of a control character write its number. -/
theorem four?_digits : ∀ n < 0x20,
    Hex.four? '0' '0' (Hex.digit (n / 16)) (Hex.digit n) = some n := by decide

/-- A delimiter is escaped as itself, and it is not the other quote. -/
theorem escaped?_delimiter (hd : Byte.isQuote d) :
    escaped? (Char.ofUInt8 d) = some (Char.ofUInt8 d) ∧
      Char.ofUInt8 d ≠ Char.ofUInt8 (Byte.otherQuote d) := by
  rcases Byte.eq_of_isQuote hd with rfl | rfl <;> decide

/-- Each character is written as one item, which stands for it, and never as the other
quote is escaped. -/
theorem exists_isItem_encodeChar (hd : Byte.isQuote d) (c : Char) :
    ∃ i, IsItem d i ∧ i.source = encodeChar (Char.ofUInt8 d) c ∧ i.source ≠ otherEscape d ∧
      i.value.Means c := by
  obtain ⟨hdelimiter, hother⟩ := escaped?_delimiter hd
  -- one letter after a backslash
  have letter {e : Char} (he : escaped? e = some c) (hne : e ≠ Char.ofUInt8 (Byte.otherQuote d)) :
      ∃ i, IsItem d i ∧ i.source = ['\\', e] ∧ i.source ≠ otherEscape d ∧ i.value.Means c :=
    ⟨_, .escape he, rfl, by simpa [otherEscape] using hne, rfl⟩
  have hquote :
      Char.ofUInt8 (Byte.otherQuote d) = '"' ∨ Char.ofUInt8 (Byte.otherQuote d) = '\'' := by
    rcases Byte.eq_of_isQuote hd with rfl | rfl <;> decide
  have hne {e : Char} (h : e ≠ '"' ∧ e ≠ '\'') : e ≠ Char.ofUInt8 (Byte.otherQuote d) := by
    rcases hquote with hquote | hquote
    · rw [hquote]
      exact h.1
    · rw [hquote]
      exact h.2
  unfold encodeChar
  split_ifs with hself hb hf hn hr ht hcontrol
  · rcases hself with rfl | rfl
    · exact letter rfl (hne (by decide))
    · exact letter hdelimiter hother
  · exact letter (hb ▸ rfl) (hne (by decide))
  · exact letter (hf ▸ rfl) (hne (by decide))
  · exact letter (hn ▸ rfl) (hne (by decide))
  · exact letter (hr ▸ rfl) (hne (by decide))
  · exact letter (ht ▸ rfl) (hne (by decide))
  · have hlt : c.toNat < 0x20 := hcontrol
    exact ⟨_, .unicode (four?_digits c.toNat hlt), rfl, by simp [otherEscape], rfl, by omega⟩
  · rw [not_or] at hself
    refine ⟨_, .plain ?_ hself.1 hcontrol, rfl, by simp [otherEscape], rfl⟩
    intro hborder
    exact hself.2 (Char.toNat_inj.mp hborder)

/-- What is written is a row of items that stand for the text. -/
theorem exists_isItems_encode (hd : Byte.isQuote d) (cs : List Char) :
    ∃ items, IsItems d items (cs.flatMap (encodeChar (Char.ofUInt8 d))) ∧
      (∀ i ∈ items, i.source ≠ otherEscape d) ∧
      ∀ done, joinOnto done (items.map Item.value) = done.reverse ++ cs := by
  induction cs with
  | nil => exact ⟨[], by simp, by simp, by simp [joinOnto]⟩
  | cons c cs ih =>
    obtain ⟨i, hi, hsource, hother, hmeans⟩ := exists_isItem_encodeChar hd c
    obtain ⟨items, hitems, hothers, hjoin⟩ := ih
    refine ⟨i :: items, ?_, ?_, ?_⟩
    · rw [List.flatMap_cons, ← hsource]
      exact hitems.cons hi
    · simpa [hother] using hothers
    · intro done
      rw [List.map_cons, joinOnto_cons hmeans, hjoin]
      simp

/-! ### A text as a string -/

theorem toList_encode (q : Char) (s : String) :
    (encode q s).toList = q :: (s.toList.flatMap (encodeChar q) ++ [q]) := String.toList_ofList

/-- What is written is a string. -/
theorem isQuoted_encode (hd : Byte.isQuote d) (s : String) :
    ∃ body, IsBody d body ∧ Utf8.bytes (encode (Char.ofUInt8 d) s) = d :: (body ++ [d]) := by
  obtain ⟨items, hitems, hothers, -⟩ := exists_isItems_encode hd s.toList
  refine ⟨_, (isBody_encode_iff hd).mpr ⟨items, hitems, hothers⟩, ?_⟩
  rw [Utf8.bytes, toList_encode, Utf8.encode_ofUInt8_cons (lt_of_isQuote hd), Utf8.encode_append,
    Utf8.encode_ofUInt8_cons (lt_of_isQuote hd)]
  rfl

/-- Decoding undoes writing. -/
theorem decode_encode (hd : Byte.isQuote d) (s : String) :
    decode d (encode (Char.ofUInt8 d) s) = .ok s := by
  obtain ⟨items, hitems, -, hjoin⟩ := exists_isItems_encode hd s.toList
  refine (decode_eq_ok_iff (lt_of_isQuote hd)).mpr ⟨items, _, toList_encode _ s, hitems, ?_⟩
  rw [join, hjoin]
  exact (String.ofList_toList (s := s)).symm

end Quoted

/-! ### A text of one lexeme -/

/-- A text that is a single lexeme is read as it. -/
theorem Reading.ofText_of_standsBefore {s : String} {l : Lexeme} (hs : Utf8.bytes s = l.bytes)
    (h : l.StandsBefore false []) : ofText s = ⟨[⟨[], l⟩], .ok []⟩ := by
  refine ofBytes_eq_iff.mpr ⟨l.endsOperand, [], ?_, .space Expr.isGap_nil⟩
  have hreads := Reads.of_standsBefore Expr.isGap_nil h
  rwa [List.nil_append, List.append_nil, ← hs] at hreads

/-- A text that is a single lexeme has it as its only token. -/
theorem TokenList.ofFormula_of_standsBefore {s : String} {l : Lexeme}
    (hs : Utf8.bytes s = l.bytes) (h : l.StandsBefore false []) : ofFormula s = .ok ⟨[l.text]⟩ := by
  refine ofFormula_eq_ok_iff.mpr ⟨[], ?_, ?_⟩
  · rw [Reading.ofText_of_standsBefore hs h]
  · rw [Reading.ofText_of_standsBefore hs h]
    rfl

/-- A text that is a single string is its own postfix order. -/
theorem Postfix.ofFormula_quoted (v : Vocabulary) {s : String}
    (hs : IsQuoted (Utf8.bytes s)) : ofFormula v s = .ok ⟨[.operand s]⟩ := by
  have hreading := Reading.ofText_of_standsBefore rfl (Lexeme.standsBefore_quoted false [] hs)
  rw [ofFormula_eq_ofReading, hreading]
  show Except.ok (⟨[.operand (Utf8.text (Utf8.bytes s))]⟩ : Postfix) = _
  rw [Utf8.text_bytes]

/-- A string may be a key in the brackets of a reference. -/
theorem isReference_key {s : String} (hs : IsQuoted (Utf8.bytes s)) :
    IsReference (Utf8.bytes ("@[" ++ s ++ "]")) := by
  rw [Utf8.bytes_append, Utf8.bytes_append]
  generalize Utf8.bytes s = bytes at hs ⊢
  cases hs with
  | intro hd hbody =>
    exact .intro (.inr rfl) (.bracket .square (.key hd hbody (.nil true)) (.nil false))

namespace Quoted

/-- **Every text survives being written as a string.**

Put in quotes of either kind, a text is a single token, in a formula and in its postfix
order, and it may be a key in the brackets of a path reference.  What this token stands
for is the text again. -/
theorem ofFormula_encode (s : String) {q : Char} (hq : q = '"' ∨ q = '\'') :
    TokenList.ofFormula (encode q s) = .ok ⟨[encode q s]⟩ ∧
    (∀ v, (Postfix.ofFormula v (encode q s)).map Postfix.toTokens = .ok ⟨[encode q s]⟩) ∧
    TokenList.ofFormula ("@[" ++ encode q s ++ "]") = .ok ⟨["@[" ++ encode q s ++ "]"]⟩ ∧
    plain (encode q s) = .ok (.decoded s) ∧
    decode q.toUInt8 (encode q s) = .ok s := by
  obtain ⟨d, hd, rfl, hbyte⟩ : ∃ d, Byte.isQuote d ∧ q = Char.ofUInt8 d ∧ q.toUInt8 = d := by
    rcases hq with rfl | rfl
    · exact ⟨Byte.doubleQuote, rfl, rfl, rfl⟩
    · exact ⟨Byte.singleQuote, rfl, rfl, rfl⟩
  obtain ⟨body, hbody, hbytes⟩ := isQuoted_encode hd s
  have hdecode := decode_encode hd s
  generalize encode (Char.ofUInt8 d) s = text at *
  have hquoted : IsQuoted (Utf8.bytes text) := by
    rw [hbytes]
    exact ⟨hd, hbody⟩
  refine ⟨?_, ?_, ?_, ?_, ?_⟩
  · rw [TokenList.ofFormula_of_standsBefore rfl (Lexeme.standsBefore_quoted false [] hquoted),
      Lexeme.text, Utf8.text_bytes]
  · intro v
    rw [Postfix.ofFormula_quoted v hquoted]
    rfl
  · rw [TokenList.ofFormula_of_standsBefore
      (l := .reference (Utf8.bytes ("@[" ++ text ++ "]"))) rfl
      (Lexeme.standsBefore_reference false (isReference_key hquoted) endsWord_nil),
      Lexeme.text, Utf8.text_bytes]
  · rw [plain_of_bytes hd hbytes, hdecode]
    rfl
  · rw [hbyte, hdecode]

/-- A text with both quotes, a bracket, a backslash, a control character and a character
beyond the first plane, in single quotes. -/
theorem ofFormula_encode_of_quotes :
    encode '\'' "it's \"]\\\x01😀" = "'it\\'s \"]\\\\\\u0001😀'" ∧
      TokenList.ofFormula "'it\\'s \"]\\\\\\u0001😀'" =
        .ok ⟨["'it\\'s \"]\\\\\\u0001😀'"]⟩ ∧
      TokenList.ofFormula "@['it\\'s \"]\\\\\\u0001😀']" =
        .ok ⟨["@['it\\'s \"]\\\\\\u0001😀']"]⟩ ∧
      plain "'it\\'s \"]\\\\\\u0001😀'" = .ok (.decoded "it's \"]\\\x01😀") := by
  have hencode : encode '\'' "it's \"]\\\x01😀" = "'it\\'s \"]\\\\\\u0001😀'" := by
    decide +kernel
  obtain ⟨htoken, -, hkey, hplain, -⟩ := ofFormula_encode "it's \"]\\\x01😀" (.inr rfl)
  rw [hencode] at htoken hkey hplain
  exact ⟨hencode, htoken, hkey, hplain⟩

end Quoted

end PathFormula
