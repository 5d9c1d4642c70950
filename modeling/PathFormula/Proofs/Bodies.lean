import PathFormula.Proofs.Grammar
import PathFormula.Proofs.Unescaping
import PathFormula.Proofs.Lossless

/-!
# Bodies of strings as rows of items

The body of a string is said in bytes, and the items of a quoted text in characters.
Where the bytes are those of a text, the two agree but for one item: a backslash with
the other quote stands in no string.

## Main definitions

* `Byte.otherQuote d` — the quote that is not the delimiter.
* `Quoted.IsHexChar c` — a hexadecimal digit, as a character.
* `Quoted.otherEscape d` — the other quote as it is escaped.

## Main results

* `isBody_encode_source_append`, `exists_isItem_of_isBody` — an item in front of a body,
  and the item that a body begins with.
* `isBody_encode_iff` — the bytes of a text are a body if the text is a row of items,
  none of which is the other quote as it is escaped.
-/

namespace PathFormula

open Literal Quoted

/-- The quote that is not the delimiter. -/
def Byte.otherQuote (d : UInt8) : UInt8 := if d = doubleQuote then singleQuote else doubleQuote

theorem Byte.isQuote_otherQuote (d : UInt8) : isQuote (otherQuote d) := by
  unfold otherQuote
  split <;> decide

namespace Quoted

variable {d : UInt8} {c e : Char} {cs : List Char} {bs : List UInt8} {i : Item}

/-- A byte may stand in a string as its character may in a quoted text. -/
theorem plain_ofUInt8_iff (d b : UInt8) :
    ((Char.ofUInt8 b).toNat ≠ d.toNat ∧ Char.ofUInt8 b ≠ '\\' ∧ ¬ Char.ofUInt8 b < ' ' ↔
      0x20 ≤ b ∧ b ≠ d ∧ b ≠ Byte.backslash) := by
  have hdelimiter : (Char.ofUInt8 b).toNat = d.toNat ↔ b = d := UInt8.toNat_inj
  have hbackslash : Char.ofUInt8 b = '\\' ↔ b = Byte.backslash := by
    rw [← Char.toNat_inj, ← UInt8.toNat_inj]
    rfl
  have hcontrol : Char.ofUInt8 b < ' ' ↔ b < 0x20 := Iff.rfl
  rw [Ne, Ne, hdelimiter, hbackslash, hcontrol, UInt8.not_lt]
  exact ⟨fun ⟨hd, hb, hs⟩ => ⟨hs, hd, hb⟩, fun ⟨hs, hd, hb⟩ => ⟨hd, hb, hs⟩⟩

/-- A byte may stand behind a backslash in a string as its character may in a quoted
text, but for the other quote. -/
theorem escaped?_ofUInt8 (hd : Byte.isQuote d) (b : UInt8) :
    Byte.IsEscaped d b ↔ (escaped? (Char.ofUInt8 b)).isSome ∧ b ≠ Byte.otherQuote d := by
  constructor
  · have hletters : (['\\', '/', 'b', 'f', 'n', 'r', 't'].map Char.toUInt8).all fun b =>
        (escaped? (Char.ofUInt8 b)).isSome && !Byte.isQuote b := by decide
    rintro (rfl | hb)
    · rcases Byte.eq_of_isQuote hd with rfl | rfl <;> decide
    · have hb := List.all_eq_true.mp hletters b hb
      rw [Bool.and_eq_true, Bool.not_eq_true'] at hb
      refine ⟨hb.1, ?_⟩
      rintro rfl
      exact absurd (Byte.isQuote_otherQuote d) (by simp [hb.2])
  · rintro ⟨hsome, hother⟩
    unfold escaped? at hsome
    split at hsome
    case h_10 => cases hsome
    all_goals next h =>
      rw [Byte.eq_of_ofUInt8 h] at hother ⊢
      revert hother
      rcases Byte.eq_of_isQuote hd with rfl | rfl <;> decide

/-- A hexadecimal digit, as a character. -/
def IsHexChar (c : Char) : Prop := ∃ b, Byte.isHexDigit b ∧ c = Char.ofUInt8 b

/-- The characters that have a value as digits are those of the digit bytes. -/
theorem isSome_value?_iff : (Hex.value? c).isSome ↔ IsHexChar c := by
  have hbyte (b : UInt8) : (Hex.value? (Char.ofUInt8 b)).isSome ↔ Byte.isHexDigit b := by
    have hrange (first last : Char) : first ≤ Char.ofUInt8 b ∧ Char.ofUInt8 b ≤ last ↔
        first.toNat ≤ b.toNat ∧ b.toNat ≤ last.toNat := Iff.rfl
    simp only [Hex.value?, hrange]
    split_ifs <;> simp_all [Byte.isHexDigit, Byte.isDigit, UInt8.le_iff_toNat_le]
  constructor
  · intro h
    obtain ⟨b, hb, rfl⟩ := Utf8.exists_ofUInt8_eq (toNat_lt_of_value? h)
    exact ⟨b, (hbyte b).mp h, rfl⟩
  · rintro ⟨b, hb, rfl⟩
    exact (hbyte b).mpr hb

/-- Four characters write a number if each of them is a digit. -/
theorem exists_four?_iff {w x y z : Char} : (∃ u, Hex.four? w x y z = some u) ↔
    IsHexChar w ∧ IsHexChar x ∧ IsHexChar y ∧ IsHexChar z := by
  simp only [← isSome_value?_iff, Hex.four?]
  cases Hex.value? w <;> cases Hex.value? x <;> cases Hex.value? y <;> cases Hex.value? z <;>
    simp

/-! ### Bodies are rows of items -/

/-- Bytes outside ASCII may stand in a body anywhere but in an escape. -/
theorem isBody_append_of_le {front : List UInt8} (hd : Byte.isQuote d)
    (hfront : ∀ b ∈ front, 0x80 ≤ b) : IsBody d (front ++ bs) ↔ IsBody d bs := by
  induction front with
  | nil => rfl
  | cons b front ih =>
    have hb : 0x80 ≤ b := hfront b List.mem_cons_self
    rw [List.cons_append, ← ih fun x hx => hfront x (List.mem_cons_of_mem b hx)]
    constructor
    · intro h
      generalize front ++ bs = bytes at h ⊢
      cases h with
      | plain _ _ _ hbs => exact hbs
      | escape | unicode => exact absurd hb (by decide)
    · refine .plain (UInt8.le_trans (by decide) hb) ?_ ?_
      · rintro rfl
        exact absurd (lt_of_isQuote hd) (UInt8.not_lt.mpr hb)
      · rintro rfl
        exact absurd hb (by decide)

/-- The other quote as it is escaped. -/
def otherEscape (d : UInt8) : List Char := ['\\', Char.ofUInt8 (Byte.otherQuote d)]

/-- An item may stand in front of a body, unless it is the other quote as it is escaped. -/
theorem isBody_encode_source_append (hd : Byte.isQuote d) (hi : IsItem d i)
    (hother : i.source ≠ otherEscape d) (h : IsBody d bs) :
    IsBody d (Utf8.encode i.source ++ bs) := by
  cases hi with
  | @plain c hborder hbackslash hcontrol =>
    rw [Utf8.encode_cons, Utf8.encode_nil, List.append_nil]
    by_cases hc : c.toNat < 0x80
    · obtain ⟨b, hb, rfl⟩ := Utf8.exists_ofUInt8_eq hc
      rw [Utf8.utf8EncodeChar_ofUInt8 hb]
      obtain ⟨hspace, hdelimiter, hplain⟩ :=
        (plain_ofUInt8_iff d b).mp ⟨hborder, hbackslash, hcontrol⟩
      exact .plain hspace hdelimiter hplain h
    · exact (isBody_append_of_le hd (Utf8.le_of_mem_utf8EncodeChar hc)).mpr h
  | @escape e c he =>
    obtain ⟨b, hb, rfl⟩ := Utf8.exists_ofUInt8_eq (toNat_lt_of_escaped? he)
    have hescaped : Byte.IsEscaped d b := by
      refine (escaped?_ofUInt8 hd b).mpr ⟨by rw [he]; rfl, ?_⟩
      rintro rfl
      exact hother rfl
    rw [Utf8.encode_cons, Utf8.encode_ofUInt8_cons hb]
    exact .escape hescaped h
  | unicode hu =>
    obtain ⟨⟨w, hw, rfl⟩, ⟨x, hx, rfl⟩, ⟨y, hy, rfl⟩, ⟨z, hz, rfl⟩⟩ := exists_four?_iff.mp ⟨_, hu⟩
    rw [Utf8.encode_cons, Utf8.encode_cons, Utf8.encode_ofUInt8_cons (lt_of_isHexDigit hw),
      Utf8.encode_ofUInt8_cons (lt_of_isHexDigit hx),
      Utf8.encode_ofUInt8_cons (lt_of_isHexDigit hy),
      Utf8.encode_ofUInt8_cons (lt_of_isHexDigit hz)]
    exact .unicode hw hx hy hz h

/-- A body that is a text begins with an item, and goes on with a body. -/
theorem exists_isItem_of_isBody (hd : Byte.isQuote d) (h : IsBody d (Utf8.encode (c :: cs))) :
    ∃ i rest, IsItem d i ∧ i.source ≠ otherEscape d ∧ i.source ++ rest = c :: cs ∧
      IsBody d (Utf8.encode rest) := by
  by_cases hc : c.toNat < 0x80
  · obtain ⟨b, hb, rfl⟩ := Utf8.exists_ofUInt8_eq hc
    rw [Utf8.encode_ofUInt8_cons hb] at h
    generalize hbytes : Utf8.encode cs = bytes at h
    cases h with
    | plain hspace hdelimiter hplain hbs =>
      obtain ⟨hborder, hbackslash, hcontrol⟩ :=
        (plain_ofUInt8_iff d b).mpr ⟨hspace, hdelimiter, hplain⟩
      exact ⟨_, cs, .plain hborder hbackslash hcontrol, by simp [otherEscape], rfl, hbytes ▸ hbs⟩
    | @escape e bs he hbs =>
      have hlt := lt_of_isEscaped hd he
      have happend : [e] ++ bs = Utf8.encode cs := hbytes.symm
      obtain ⟨rest, rfl, rfl⟩ := Utf8.exists_encode_of_ascii_append happend (by simpa using hlt)
      obtain ⟨hsome, hother⟩ := (escaped?_ofUInt8 hd e).mp he
      obtain ⟨c, hc⟩ := Option.isSome_iff_exists.mp hsome
      refine ⟨_, rest, .escape hc, ?_, rfl, hbs⟩
      intro heq
      have hchar : Char.ofUInt8 e = Char.ofUInt8 (Byte.otherQuote d) := by
        simpa [otherEscape] using heq
      exact hother (UInt8.toNat_inj.mp (congrArg Char.toNat hchar))
    | @unicode w x y z bs hw hx hy hz hbs =>
      have happend : ['u'.toUInt8, w, x, y, z] ++ bs = Utf8.encode cs := hbytes.symm
      have hascii : ∀ a ∈ ['u'.toUInt8, w, x, y, z], a < 0x80 := by
        simpa using ⟨by decide, lt_of_isHexDigit hw, lt_of_isHexDigit hx,
          lt_of_isHexDigit hy, lt_of_isHexDigit hz⟩
      obtain ⟨rest, rfl, rfl⟩ := Utf8.exists_encode_of_ascii_append happend hascii
      obtain ⟨u, hu⟩ := exists_four?_iff.mpr
        ⟨⟨w, hw, rfl⟩, ⟨x, hx, rfl⟩, ⟨y, hy, rfl⟩, ⟨z, hz, rfl⟩⟩
      exact ⟨_, rest, .unicode hu, by simp [otherEscape], rfl, hbs⟩
  · rw [Utf8.encode_cons, isBody_append_of_le hd (Utf8.le_of_mem_utf8EncodeChar hc)] at h
    refine ⟨_, cs, .plain ?_ ?_ ?_, by simp [otherEscape], rfl, h⟩
    · intro heq
      rw [heq] at hc
      exact hc (UInt8.lt_iff_toNat_lt.mp (lt_of_isQuote hd))
    · rintro rfl
      exact hc (by decide)
    · intro hspace
      have hlt : c.toNat < ' '.toNat := hspace
      exact hc (Nat.lt_trans hlt (by decide))

/-- The bytes of a body are a row of items, none of which is the other quote as it is
escaped. -/
theorem isBody_encode_iff (hd : Byte.isQuote d) : IsBody d (Utf8.encode cs) ↔
    ∃ items, IsItems d items cs ∧ ∀ i ∈ items, i.source ≠ otherEscape d := by
  constructor
  · -- on the number of characters, since an item takes several
    induction hn : cs.length using Nat.strong_induction_on generalizing cs with
    | _ n ih =>
      intro h
      cases cs with
      | nil => exact ⟨[], by simp, by simp⟩
      | cons c cs =>
        obtain ⟨i, rest, hi, hother, hsource, hrest⟩ := exists_isItem_of_isBody hd h
        have hlength : rest.length < n := by
          have := congrArg List.length hsource
          have := List.length_pos_iff.mpr hi.source_ne_nil
          simp only [List.length_append] at *
          omega
        obtain ⟨items, hitems, hothers⟩ := ih rest.length hlength rfl hrest
        refine ⟨i :: items, hsource ▸ hitems.cons hi, ?_⟩
        simpa [hother] using hothers
  · rintro ⟨items, hitems, hothers⟩
    induction items generalizing cs with
    | nil =>
      rw [← hitems.source_eq]
      exact .nil
    | cons i items ih =>
      obtain ⟨hi, hrest, rfl⟩ := hitems.of_cons
      rw [Utf8.encode_append]
      exact isBody_encode_source_append hd hi (hothers i List.mem_cons_self)
        (ih hrest fun j hj => hothers j (List.mem_cons_of_mem i hj))

end Quoted

end PathFormula
