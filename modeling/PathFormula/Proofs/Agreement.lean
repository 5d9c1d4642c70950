import PathFormula.Proofs.Bodies
import PathFormula.Proofs.Conservation
import PathFormula.Proofs.Quotation

/-!
# Strings and quoted texts

A string is read byte by byte, and the text it stands for is found character by
character.  Both accept the same texts, but for one escape: a backslash with the
other quote stands in no string, though it could be decoded.  So whatever is a
string in a formula has a text that it stands for.

## Main definitions

* `Quoted.escapes cs` — the characters that stand behind a backslash.

## Main results

* `otherQuote_mem_escapes_iff` — the other quote is escaped in a row of items if one of
  them is it.
* `readString_isAtEnd_iff` — a text is a single string if it is a body between
  delimiters.
* `Lexeme.plain_text_of_isRead`, `Postfix.exists_lexeme_of_mem_tokens` — what is quoted
  in a formula can be decoded, and the postfix order has no other tokens.
* `readString_iff_decode` — **strings and quoted texts agree.**
-/

namespace PathFormula

open Literal Quoted

/-- The characters that stand behind a backslash, read from the front. -/
def Quoted.escapes : List Char → List Char
  | '\\' :: c :: cs => c :: escapes cs
  | _ :: cs => escapes cs
  | [] => []

namespace Quoted

variable {d : UInt8} {c : Char} {cs : List Char} {items : List Item}

/-! ### Escapes of a body -/

theorem escapes_cons (hc : c ≠ '\\') (cs : List Char) : escapes (c :: cs) = escapes cs := by
  rw [escapes]
  rintro c' cs' rfl -
  exact hc rfl

theorem ne_backslash_of_isHexChar (h : IsHexChar c) : c ≠ '\\' := by
  have hbyte : ∀ b : UInt8, Byte.isHexDigit b → Char.ofUInt8 b ≠ '\\' := by decide +kernel
  obtain ⟨b, hb, rfl⟩ := h
  exact hbyte b hb

/-- The escapes of a row of items are the second characters of items. -/
theorem escapes_eq (h : IsItems d items cs) :
    escapes cs = items.filterMap fun i => i.source[1]? := by
  induction items generalizing cs with
  | nil =>
    rw [← h.source_eq]
    rfl
  | cons i items ih =>
    obtain ⟨hi, hrest, rfl⟩ := h.of_cons
    have ih := ih hrest
    cases hi with
    | plain hborder hbackslash hcontrol =>
      rw [List.singleton_append, escapes_cons hbackslash, ih]
      rfl
    | escape he =>
      rw [List.cons_append, List.cons_append, escapes, List.nil_append, ih]
      rfl
    | unicode hu =>
      obtain ⟨hw, hx, hy, hz⟩ := exists_four?_iff.mp ⟨_, hu⟩
      simp only [List.cons_append, List.nil_append]
      rw [escapes, escapes_cons (ne_backslash_of_isHexChar hw),
        escapes_cons (ne_backslash_of_isHexChar hx), escapes_cons (ne_backslash_of_isHexChar hy),
        escapes_cons (ne_backslash_of_isHexChar hz), ih]
      rfl

/-- The other quote is escaped in a row of items if one of them is it. -/
theorem otherQuote_mem_escapes_iff (hd : Byte.isQuote d) (h : IsItems d items cs) :
    Char.ofUInt8 (Byte.otherQuote d) ∈ escapes cs ↔ ∃ i ∈ items, i.source = otherEscape d := by
  rw [escapes_eq h, List.mem_filterMap]
  refine exists_congr fun i => and_congr_right fun hi => ?_
  cases h.isItem i hi with
  | plain => simp [otherEscape]
  | escape => simp [otherEscape]
  | unicode =>
    have hu : 'u' ≠ Char.ofUInt8 (Byte.otherQuote d) := by
      rcases Byte.eq_of_isQuote hd with rfl | rfl <;> decide
    simpa [otherEscape] using hu

/-- A body between delimiters can be decoded exactly if it is a row of items. -/
theorem exists_decode_iff {s : String} (hd : Byte.isQuote d)
    (hs : s.toList = Char.ofUInt8 d :: (cs ++ [Char.ofUInt8 d])) :
    (∃ t, decode d s = .ok t) ↔ ∃ items, IsItems d items cs := by
  constructor
  · rintro ⟨t, h⟩
    obtain ⟨items, body, hbody, hitems, -⟩ := (decode_eq_ok_iff (lt_of_isQuote hd)).mp h
    rw [hs] at hbody
    obtain rfl := List.append_cancel_right (List.cons.inj hbody).2
    exact ⟨items, hitems⟩
  · rintro ⟨items, hitems⟩
    exact ⟨_, (decode_eq_ok_iff (lt_of_isQuote hd)).mpr ⟨items, cs, hs, hitems, rfl⟩⟩

/-- A text of a body between delimiters, by its characters. -/
theorem exists_toList_eq_of_bytes {s : String} {body : List UInt8} (hd : Byte.isQuote d)
    (hs : Utf8.bytes s = d :: (body ++ [d])) :
    ∃ cs, s.toList = Char.ofUInt8 d :: (cs ++ [Char.ofUInt8 d]) ∧ body = Utf8.encode cs := by
  have hlt := lt_of_isQuote hd
  obtain ⟨cs, hcs⟩ := exists_toList_eq hlt (s := s) (by simp [hs]) (by simp [hs])
    (by rw [hs, ← List.cons_append, List.getLast?_concat])
  refine ⟨cs, hcs, ?_⟩
  have hbytes : Utf8.bytes s = d :: (Utf8.encode cs ++ [d]) := by
    simp [Utf8.bytes, hcs, Utf8.utf8EncodeChar_ofUInt8 hlt]
  rw [hs] at hbytes
  exact List.append_cancel_right (List.cons.inj hbytes).2

/-- A key that stands between delimiters is decoded. -/
theorem plain_of_bytes {s : String} {body : List UInt8} (hd : Byte.isQuote d)
    (hs : Utf8.bytes s = d :: (body ++ [d])) :
    plain s = (decode d s).map Plain.decoded := by
  have hlast : (Utf8.bytes s).getLast? = some d := by
    rw [hs, ← List.cons_append, List.getLast?_concat]
  cases body with
  | nil =>
    rw [List.nil_append] at hs
    simp only [plain, hs] at hlast ⊢
    rw [if_pos ⟨hd, hlast⟩]
  | cons b body =>
    rw [List.cons_append] at hs
    simp only [plain, hs] at hlast ⊢
    rw [if_pos ⟨hd, hlast⟩]

end Quoted

/-! ### Strings -/

namespace Cursor

variable {d : UInt8} {rest : List UInt8}

/-- A text is a single string if it is a body between delimiters. -/
theorem readString_isAtEnd_iff (hd : Byte.isQuote d) :
    (∃ c, (ofBytes (d :: rest)).readString d none = .ok () c ∧ c.isAtEnd) ↔
      ∃ body, IsBody d body ∧ rest = body ++ [d] := by
  constructor
  · rintro ⟨c, h, hend⟩
    obtain ⟨body, hbody, -, hrest⟩ := exists_isBody_of_readString hd h
    obtain hnil : c.rest = [] := List.isEmpty_iff.mp hend
    exact ⟨body, hbody, by rw [hrest, hnil]⟩
  · rintro ⟨body, hbody, rfl⟩
    exact ⟨_, readString_of_isBody hd hbody [], rfl⟩

end Cursor

/-! ### Tokens of a formula -/

/-- A quoted lexeme is a body between delimiters. -/
theorem Lexeme.exists_isBody_of_isRead {afterOperand : Bool} {b : UInt8}
    {rest after bs : List UInt8} (h : IsRead afterOperand b rest (.quoted bs) after) :
    Byte.isQuote b ∧ ∃ body, IsBody b body ∧ bs = b :: (body ++ [b]) := by
  cases h with
  | quoted hb hc =>
    have hd : Byte.isQuote b := (Lead.ofByte_eq_iff .quote b).mp hb
    obtain ⟨body, hbody, hpassed, -⟩ := Cursor.exists_isBody_of_readString hd hc
    exact ⟨hd, body, hbody, hpassed⟩

/-- A lexeme whose text begins with a quote is quoted. -/
theorem Lexeme.exists_eq_quoted_of_text {afterOperand : Bool} {b : UInt8}
    {rest after : List UInt8} {l : Lexeme} {s : String} {q : Char}
    (h : IsRead afterOperand b rest l after) (hs : Utf8.bytes s = l.bytes)
    (hq : q = '"' ∨ q = '\'') (htext : l.text.toList.head? = some q) : ∃ bs, l = .quoted bs := by
  have hallows := allows_of_isRead h
  obtain ⟨b', more, hb', hlead⟩ := exists_lead_text h hs
  have hquote : Lead.ofByte b' = .quote := by
    obtain ⟨cs, hcs⟩ := List.head?_eq_some_iff.mp htext
    rw [Utf8.bytes, hcs] at hb'
    rcases hq with rfl | rfl <;> (rw [← (List.cons.inj hb').1]; rfl)
  rw [← hlead, hquote] at hallows
  cases l with
  | quoted bs => exact ⟨bs, rfl⟩
  | _ => cases hallows

/-- What is quoted in a formula can be decoded. -/
theorem Lexeme.plain_text_of_isRead {afterOperand : Bool} {b : UInt8} {rest after : List UInt8}
    {l : Lexeme} {s : String} {q : Char} (h : IsRead afterOperand b rest l after)
    (hs : Utf8.bytes s = l.bytes) (hq : q = '"' ∨ q = '\'')
    (htext : l.text.toList.head? = some q) :
    l.text.toList.getLast? = some q ∧ ∃ t, Quoted.plain l.text = .ok (.decoded t) := by
  obtain ⟨bs, rfl⟩ := exists_eq_quoted_of_text h hs hq htext
  obtain ⟨hd, body, hbody, hbs⟩ := exists_isBody_of_isRead h
  obtain rfl : s = (quoted bs).text := by
    rw [← Utf8.text_bytes s, hs]
    rfl
  have hbytes : Utf8.bytes (quoted bs).text = b :: (body ++ [b]) := hs.trans hbs
  obtain ⟨cs, hcs, rfl⟩ := exists_toList_eq_of_bytes hd hbytes
  rw [hcs, List.head?_cons, Option.some_inj] at htext
  obtain ⟨items, hitems, -⟩ := (isBody_encode_iff hd).mp hbody
  obtain ⟨t, ht⟩ := (exists_decode_iff hd hcs).mpr ⟨items, hitems⟩
  constructor
  · rw [hcs, ← List.cons_append, List.getLast?_concat, htext]
  · refine ⟨t, ?_⟩
    rw [plain_of_bytes hd hbytes, ht]
    rfl

/-- The postfix order has tokens of the formula only. -/
theorem Postfix.exists_lexeme_of_mem_tokens {v : Vocabulary} {s : String} {p : Postfix}
    (h : ofFormula v s = .ok p) {t : String} (ht : t ∈ p.toTokens.tokens) :
    ∃ l ∈ (Reading.ofText s).lexemes, l.text = t := by
  obtain ⟨b, gap, hrun, -, hfinish⟩ := ofFormula_eq_ok_iff.mp h
  obtain ⟨-, -, hentries⟩ := Builder.finish_eq_ok_iff.mp hfinish
  have hb : Builder.Holds (Reading.ofText s).lexemes b :=
    Builder.holds_run Builder.holds_start hrun
  obtain ⟨entry, hentry, rfl⟩ := List.mem_map.mp ht
  have hheld : entry ∈ b.held := by
    rw [hentries, List.mem_append, List.mem_reverse] at hentry
    exact List.mem_append.mpr hentry
  obtain ⟨l, hl, hentry⟩ := List.mem_filterMap.mp (hb.held_perm.mem_iff.mp hheld)
  exact ⟨l, hl, (Lexeme.text_of_asEntry hentry).symm⟩

/-- In a formula, what begins with a quote ends with it, and can be decoded. -/
theorem Reading.plain_text_of_mem {s : String} {l : Lexeme} (hl : l ∈ (ofText s).lexemes)
    {q : Char} (hq : q = '"' ∨ q = '\'') (htext : l.text.toList.head? = some q) :
    l.text.toList.getLast? = some q ∧ ∃ t, Quoted.plain l.text = .ok (.decoded t) := by
  obtain ⟨afterOperand, b, rest, after, source, hread, hsource⟩ := exists_isRead_of_mem hl
  exact Lexeme.plain_text_of_isRead hread hsource hq htext

namespace Quoted

/-- **Strings and quoted texts agree.**

A text that begins with a delimiter is a single string exactly if it can be decoded and
the other quote is not escaped in it.  So every token that begins with a quote, in the
tokens of a formula or in its postfix order, ends with the same quote and can be decoded. -/
theorem readString_iff_decode :
    (∀ (s : String) (d : UInt8), Byte.isQuote d → (Utf8.bytes s).head? = some d →
      ((∃ c, (Cursor.ofBytes (Utf8.bytes s)).readString d none = .ok () c ∧ c.isAtEnd) ↔
        (∃ t, decode d s = .ok t) ∧
          Char.ofUInt8 (Byte.otherQuote d) ∉ escapes s.toList.tail.dropLast)) ∧
    (∀ (s : String) (ts : TokenList), TokenList.ofFormula s = .ok ts →
      ∀ t ∈ ts.tokens, ∀ q, q = '"' ∨ q = '\'' → t.toList.head? = some q →
        t.toList.getLast? = some q ∧ ∃ value, plain t = .ok (.decoded value)) ∧
    ∀ (v : Vocabulary) (s : String) (p : Postfix), Postfix.ofFormula v s = .ok p →
      ∀ t ∈ p.toTokens.tokens, ∀ q, q = '"' ∨ q = '\'' → t.toList.head? = some q →
        t.toList.getLast? = some q ∧ ∃ value, plain t = .ok (.decoded value) := by
  refine ⟨?_, ?_, ?_⟩
  · intro s d hd hhead
    have hlt := lt_of_isQuote hd
    obtain ⟨rest, hrest⟩ := List.head?_eq_some_iff.mp hhead
    rw [hrest, Cursor.readString_isAtEnd_iff hd]
    constructor
    · rintro ⟨body, hbody, rfl⟩
      obtain ⟨cs, hcs, rfl⟩ := exists_toList_eq_of_bytes hd hrest
      obtain ⟨items, hitems, hothers⟩ := (isBody_encode_iff hd).mp hbody
      refine ⟨(exists_decode_iff hd hcs).mpr ⟨items, hitems⟩, ?_⟩
      rw [hcs, List.tail_cons, List.dropLast_concat, otherQuote_mem_escapes_iff hd hitems]
      rintro ⟨i, hi, hother⟩
      exact hothers i hi hother
    · rintro ⟨⟨t, ht⟩, hescapes⟩
      obtain ⟨items, cs, hcs, hitems, -⟩ := (decode_eq_ok_iff hlt).mp ht
      rw [hcs, List.tail_cons, List.dropLast_concat, otherQuote_mem_escapes_iff hd hitems]
        at hescapes
      refine ⟨Utf8.encode cs, (isBody_encode_iff hd).mpr ⟨items, hitems, ?_⟩, ?_⟩
      · exact fun i hi hother => hescapes ⟨i, hi, hother⟩
      · have hbytes : Utf8.bytes s = d :: (Utf8.encode cs ++ [d]) := by
          simp [Utf8.bytes, hcs, Utf8.utf8EncodeChar_ofUInt8 hlt]
        exact (List.cons.inj (hrest.symm.trans hbytes)).2
  · intro s ts h t ht q hq hhead
    obtain ⟨gap, -, rfl⟩ := TokenList.ofFormula_eq_ok_iff.mp h
    obtain ⟨l, hl, rfl⟩ := List.mem_map.mp ht
    exact Reading.plain_text_of_mem hl hq hhead
  · intro v s p h t ht q hq hhead
    obtain ⟨l, hl, rfl⟩ := Postfix.exists_lexeme_of_mem_tokens h ht
    exact Reading.plain_text_of_mem hl hq hhead

/-- The other quote as it is escaped can be decoded and is no string, and a quote inside
a string of a formula is found in the text that the string stands for. -/
theorem readString_iff_decode_of_quotes :
    ((∃ t, decode Byte.singleQuote "'\\\"'" = .ok t) ∧
      ¬ ∃ c, (Cursor.ofBytes (Utf8.bytes "'\\\"'")).readString Byte.singleQuote none = .ok () c ∧
        c.isAtEnd) ∧
    (TokenList.ofFormula "'it\\'s' == $.é" = .ok ⟨["'it\\'s'", "==", "$.", "é"]⟩ ∧
      ∃ value, plain "'it\\'s'" = .ok (.decoded value)) ∧
    (Postfix.ofFormula .standard "\"\\u00e9\" + 'a\"'" =
        .ok ⟨[.operand "\"\\u00e9\"", .operand "'a\"'", .operator .plus]⟩ ∧
      ∃ value, plain "'a\"'" = .ok (.decoded value)) := by
  obtain ⟨hagree, htokens, hordering⟩ := readString_iff_decode
  have hdecode : ∃ t, decode Byte.singleQuote "'\\\"'" = .ok t := ⟨"\"", by decide +kernel⟩
  have hformula : TokenList.ofFormula "'it\\'s' == $.é" =
      .ok ⟨["'it\\'s'", "==", "$.", "é"]⟩ := by decide +kernel
  have hordered : Postfix.ofFormula .standard "\"\\u00e9\" + 'a\"'" =
      .ok ⟨[.operand "\"\\u00e9\"", .operand "'a\"'", .operator .plus]⟩ := by decide +kernel
  refine ⟨⟨hdecode, ?_⟩, ⟨hformula, ?_⟩, hordered, ?_⟩
  · rw [hagree _ Byte.singleQuote rfl (by decide +kernel)]
    exact fun h => h.2 (by decide +kernel)
  · exact (htokens _ _ hformula _ (by simp) '\'' (.inr rfl) (by decide +kernel)).2
  · exact (hordering _ _ _ hordered _ (by simp [Postfix.toTokens, Entry.text]) '\'' (.inr rfl)
      (by decide +kernel)).2

end Quoted

end PathFormula
