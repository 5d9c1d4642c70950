import Mathlib.Data.FinEnum
import PathFormula.Byte
import PathFormula.Text.Utf8

/-!
# Texts and their bytes

Reading the bytes of a text gives the text back, and a text can be cut in front
of any byte that continues no character.  The lexical rules only ever cut there,
so none of them breaks a character into pieces.

## Main definitions

* `Utf8.Boundary after` — no character is broken in front of `after`.
* `Utf8.IsSeparated bytes` — no byte continues an ASCII byte.

## Main results

* `decode_encode`, `text_bytes` — reading undoes writing.
* `exists_encode_of_append`, `exists_encode_of_append_ascii` — a text can be cut
  at every boundary, and behind every ASCII byte.
* `exists_encode_of_encode_append` — what follows a text inside a text is a text.
* `decode_ascii` — ASCII bytes are read one by one.
* `le_of_mem_utf8EncodeChar` — outside ASCII, all bytes of a character are.
* `lt_of_head?_of_getLast?` — only an ASCII byte both begins and ends a text.
* `bytes_toLower` — making letters small does the same to the bytes of a text.
-/

namespace PathFormula.Utf8

@[simp] theorem encode_nil : encode [] = [] := rfl

@[simp] theorem encode_cons (c : Char) (cs : List Char) :
    encode (c :: cs) = String.utf8EncodeChar c ++ encode cs := rfl

@[simp] theorem encode_append (front back : List Char) :
    encode (front ++ back) = encode front ++ encode back := List.flatMap_append

@[simp] theorem bytes_append (s t : String) : bytes (s ++ t) = bytes s ++ bytes t := by
  simp [bytes]

@[simp] theorem bytes_ofList (cs : List Char) : bytes (String.ofList cs) = encode cs := by
  simp [bytes]

/-! ### Reading what was written -/

/-- The character in front is found, whatever bytes come after it. -/
theorem char?_append (c : Char) (rest : List UInt8) :
    char? (String.utf8EncodeChar c ++ rest) = some c := by
  have hsize : (String.utf8EncodeChar c).length ≤ 4 := by
    simpa using c.utf8Size_le_four
  rw [char?, List.take_append, List.take_of_length_le hsize, List.toByteArray_append,
    ByteArray.utf8DecodeChar?_utf8EncodeChar_append]

/-- A reading step in front of a character takes just this character. -/
theorem next_eq {b : UInt8} {rest after : List UInt8} {c : Char}
    (h : b :: rest = String.utf8EncodeChar c ++ after) : next b rest = (c, after) := by
  have hsize : (String.utf8EncodeChar c).length = c.utf8Size - 1 + 1 := by
    have := c.utf8Size_pos
    simp only [String.length_utf8EncodeChar]
    omega
  have hdrop : rest.drop (c.utf8Size - 1) = after := by
    have := congrArg (List.drop (c.utf8Size - 1 + 1)) h
    rwa [List.drop_succ_cons, ← hsize, List.drop_left] at this
  rw [next, h, char?_append]
  simp only [hdrop]

theorem decodeOnto_encode (cs done : List Char) :
    decodeOnto done (encode cs) = done.reverse ++ cs := by
  induction cs generalizing done with
  | nil => simp [decodeOnto]
  | cons c cs ih =>
    obtain ⟨b, rest, hb⟩ := List.exists_cons_of_ne_nil (String.utf8EncodeChar_ne_nil (c := c))
    have hnext : next b (rest ++ encode cs) = (c, encode cs) :=
      next_eq (by rw [hb, List.cons_append])
    rw [encode_cons, hb, List.cons_append, decodeOnto, hnext, ih]
    simp

/-- Reading the bytes of a list of characters gives the characters. -/
@[simp] theorem decode_encode (cs : List Char) : decode (encode cs) = cs :=
  decodeOnto_encode cs []

/-- Reading the bytes of a text gives the text. -/
@[simp] theorem text_bytes (s : String) : text (bytes s) = s := by
  simp [text, bytes]

theorem bytes_injective {s t : String} (h : bytes s = bytes t) : s = t := by
  rw [← text_bytes s, h, text_bytes]

/-! ### Cutting a text -/

/-- What follows a text inside a text is a text. -/
theorem exists_encode_of_encode_append {front cs : List Char} {after : List UInt8}
    (h : encode front ++ after = encode cs) :
    ∃ back, cs = front ++ back ∧ after = encode back := by
  induction front generalizing cs with
  | nil => exact ⟨cs, rfl, h⟩
  | cons c front ih =>
    rw [encode_cons, List.append_assoc] at h
    cases cs with
    | nil => simp [String.utf8EncodeChar_ne_nil] at h
    | cons c' cs =>
      rw [encode_cons] at h
      -- both sides begin with one character, which is read back
      have hc : c = c' := by
        have := congrArg char? h
        rwa [char?_append, char?_append, Option.some_inj] at this
      subst hc
      obtain ⟨back, rfl, hback⟩ := ih (List.append_cancel_left h)
      exact ⟨back, rfl, hback⟩

/-- A place where no character is broken: the end, or the front of a byte that
does not continue one. -/
def Boundary (after : List UInt8) : Prop := ∀ b ∈ after.head?, isContinuation b = false

@[simp] theorem boundary_cons (b : UInt8) (rest : List UInt8) :
    Boundary (b :: rest) ↔ isContinuation b = false := by simp [Boundary]

/-- The bytes of a character after the first one continue it. -/
theorem isContinuation_of_mem_tail {c : Char} {b : UInt8}
    (hb : b ∈ (String.utf8EncodeChar c).tail) : isContinuation b := by
  have hlow : ∀ x : UInt8, isContinuation (x &&& 0x3f ||| 0x80) := by decide +kernel
  rcases c.utf8Size_eq with h | h | h | h
  · rw [String.utf8EncodeChar_eq_singleton h] at hb
    simp at hb
  · rw [String.utf8EncodeChar_eq_cons_cons h] at hb
    simp only [List.tail_cons, List.mem_singleton] at hb
    rw [hb]
    exact hlow _
  · rw [String.utf8EncodeChar_eq_cons_cons_cons h] at hb
    simp only [List.tail_cons, List.mem_cons, List.not_mem_nil, or_false] at hb
    rcases hb with hb | hb <;> rw [hb] <;> exact hlow _
  · rw [String.utf8EncodeChar_eq_cons_cons_cons_cons h] at hb
    simp only [List.tail_cons, List.mem_cons, List.not_mem_nil, or_false] at hb
    rcases hb with hb | hb | hb <;> rw [hb] <;> exact hlow _

/-- A text can be cut at every boundary. -/
theorem exists_encode_of_append {before after : List UInt8} {cs : List Char}
    (h : before ++ after = encode cs) (hafter : Boundary after) :
    ∃ front back, cs = front ++ back ∧ before = encode front ∧ after = encode back := by
  induction cs generalizing before with
  | nil =>
    obtain ⟨rfl, rfl⟩ := List.append_eq_nil_iff.mp h
    exact ⟨[], [], rfl, rfl, rfl⟩
  | cons c cs ih =>
    rw [encode_cons] at h
    rcases List.append_eq_append_iff.mp h with ⟨more, hc, hmore⟩ | ⟨more, rfl, hmore⟩
    · -- the cut lies in the first character, where only its two ends are boundaries
      cases before with
      | nil => exact ⟨[], c :: cs, rfl, rfl, by simpa using h⟩
      | cons b before =>
        cases more with
        | nil =>
          rw [List.append_nil] at hc
          exact ⟨[c], cs, rfl, by simp [hc], hmore⟩
        | cons m more =>
          have hm : isContinuation m := by
            apply isContinuation_of_mem_tail (c := c)
            simp [hc]
          rw [hmore, List.cons_append, boundary_cons, hm] at hafter
          cases hafter
    · obtain ⟨front, back, rfl, rfl, hback⟩ := ih hmore.symm
      exact ⟨c :: front, back, rfl, rfl, hback⟩

/-! ### Inside and outside ASCII -/

/-- An ASCII byte is its own encoding. -/
theorem utf8EncodeChar_ofUInt8 : ∀ {b : UInt8}, b < 0x80 →
    String.utf8EncodeChar (Char.ofUInt8 b) = [b] := by decide +kernel

/-- An ASCII byte continues no character. -/
theorem isContinuation_of_lt : ∀ {b : UInt8}, b < 0x80 → isContinuation b = false := by
  decide +kernel

theorem encode_ofUInt8_cons {b : UInt8} (hb : b < 0x80) (cs : List Char) :
    encode (Char.ofUInt8 b :: cs) = b :: encode cs := by
  rw [encode_cons, utf8EncodeChar_ofUInt8 hb]
  rfl

/-- An ASCII character has a single byte. -/
theorem exists_ofUInt8_eq {c : Char} (hc : c.toNat < 0x80) :
    ∃ b : UInt8, b < 0x80 ∧ c = Char.ofUInt8 b := by
  refine ⟨c.toUInt8, ?_, ?_⟩
  · rw [UInt8.lt_iff_toNat_lt]
    change c.toNat % 256 < 128
    omega
  · apply Char.ext
    apply UInt32.toNat.inj
    change c.toNat = c.toNat % 256
    omega

/-- ASCII bytes are their own encoding. -/
theorem encode_map_ofUInt8 {bs : List UInt8} (h : ∀ b ∈ bs, b < 0x80) :
    encode (bs.map Char.ofUInt8) = bs := by
  induction bs with
  | nil => rfl
  | cons b bs ih =>
    rw [List.map_cons, encode_cons, utf8EncodeChar_ofUInt8 (h b List.mem_cons_self),
      ih fun x hx => h x (List.mem_cons_of_mem b hx)]
    rfl

/-- ASCII bytes are read one by one. -/
theorem decode_ascii {bs : List UInt8} (h : ∀ b ∈ bs, b < 0x80) :
    decode bs = bs.map Char.ofUInt8 := by
  rw [← decode_encode (bs.map Char.ofUInt8), encode_map_ofUInt8 h]

/-- The bytes of a character outside ASCII are all outside ASCII. -/
theorem le_of_mem_utf8EncodeChar {c : Char} (hc : ¬ c.toNat < 0x80) :
    ∀ b ∈ String.utf8EncodeChar c, 0x80 ≤ b := by
  have hhigh (x : UInt8) {y : UInt8} (hy : 0x80 ≤ y) : 0x80 ≤ x ||| y := by
    rw [UInt8.le_iff_toNat_le, UInt8.toNat_or]
    exact Nat.le_trans (UInt8.le_iff_toNat_le.mp hy) Nat.right_le_or
  intro b hb
  rw [← List.cons_head_tail (String.utf8EncodeChar_ne_nil (c := c))] at hb
  rcases List.mem_cons.mp hb with hb | hb
  · -- the first byte says how many there are, and there is not only one
    rcases c.utf8Size_eq with h | h | h | h
    · rw [Char.utf8Size_eq_one_iff, UInt32.le_iff_toNat_le] at h
      exact absurd (Nat.lt_succ_of_le h) hc
    · simp only [String.utf8EncodeChar_eq_cons_cons h, List.head_cons] at hb
      rw [hb]
      exact hhigh _ (by decide)
    · simp only [String.utf8EncodeChar_eq_cons_cons_cons h, List.head_cons] at hb
      rw [hb]
      exact hhigh _ (by decide)
    · simp only [String.utf8EncodeChar_eq_cons_cons_cons_cons h, List.head_cons] at hb
      rw [hb]
      exact hhigh _ (by decide)
  · rw [← eq_of_beq (isContinuation_of_mem_tail hb)]
    exact UInt8.and_le_left

/-- The first byte of a character continues none. -/
theorem isContinuation_head (c : Char) :
    ∀ b ∈ (String.utf8EncodeChar c).head?, isContinuation b = false := by
  have hlead : ∀ x : UInt8, isContinuation (x &&& 0x1f ||| 0xc0) = false ∧
      isContinuation (x &&& 0x0f ||| 0xe0) = false ∧
      isContinuation (x &&& 0x07 ||| 0xf0) = false := by decide +kernel
  intro b hb
  by_cases hc : c.toNat < 0x80
  · obtain ⟨x, hx, rfl⟩ := exists_ofUInt8_eq hc
    rw [utf8EncodeChar_ofUInt8 hx] at hb
    cases hb
    exact isContinuation_of_lt hx
  · rcases c.utf8Size_eq with h | h | h | h
    · rw [Char.utf8Size_eq_one_iff, UInt32.le_iff_toNat_le] at h
      exact absurd (Nat.lt_succ_of_le h) hc
    · rw [String.utf8EncodeChar_eq_cons_cons h] at hb
      cases hb
      exact (hlead _).1
    · rw [String.utf8EncodeChar_eq_cons_cons_cons h] at hb
      cases hb
      exact (hlead _).2.1
    · rw [String.utf8EncodeChar_eq_cons_cons_cons_cons h] at hb
      cases hb
      exact (hlead _).2.2

/-- The last byte of a character outside ASCII continues it. -/
theorem isContinuation_getLast {c : Char} (hc : ¬ c.toNat < 0x80) :
    ∀ b ∈ (String.utf8EncodeChar c).getLast?, isContinuation b := by
  intro b hb
  have hsize : (String.utf8EncodeChar c).length ≠ 1 := by
    rw [String.length_utf8EncodeChar, Ne, Char.utf8Size_eq_one_iff, UInt32.le_iff_toNat_le]
    exact fun h => hc (Nat.lt_succ_of_le h)
  cases hbytes : String.utf8EncodeChar c with
  | nil => exact absurd hbytes String.utf8EncodeChar_ne_nil
  | cons first more =>
    cases more with
    | nil => simp [hbytes] at hsize
    | cons second more =>
      apply isContinuation_of_mem_tail (c := c)
      rw [hbytes, List.tail_cons]
      rw [hbytes, List.getLast?_cons_cons] at hb
      exact List.mem_of_getLast? hb

/-- No text begins and ends with the same byte outside ASCII. -/
theorem lt_of_head?_of_getLast? {s : String} {b : UInt8} (hhead : (bytes s).head? = some b)
    (hlast : (bytes s).getLast? = some b) : b < 0x80 := by
  rw [bytes] at hhead hlast
  generalize s.toList = cs at hhead hlast
  have hstart : isContinuation b = false := by
    cases cs with
    | nil => cases hhead
    | cons c cs =>
      apply isContinuation_head c
      rwa [encode_cons, List.head?_append_of_ne_nil _ String.utf8EncodeChar_ne_nil] at hhead
  rcases List.eq_nil_or_concat cs with rfl | ⟨cs, c, rfl⟩
  · cases hlast
  · rw [List.concat_eq_append, encode_append, encode_cons, encode_nil, List.append_nil,
      List.getLast?_append_of_ne_nil _ String.utf8EncodeChar_ne_nil] at hlast
    by_cases hc : c.toNat < 0x80
    · obtain ⟨x, hx, rfl⟩ := exists_ofUInt8_eq hc
      rw [utf8EncodeChar_ofUInt8 hx] at hlast
      cases hlast
      exact hx
    · rw [isContinuation_getLast hc b hlast] at hstart
      cases hstart

/-- A text that goes on behind ASCII bytes goes on with a text. -/
theorem exists_encode_of_ascii_append {front after : List UInt8} {cs : List Char}
    (h : front ++ after = encode cs) (hfront : ∀ b ∈ front, b < 0x80) :
    ∃ back, cs = front.map Char.ofUInt8 ++ back ∧ after = encode back := by
  rw [← encode_map_ofUInt8 hfront] at h
  exact exists_encode_of_encode_append h

/-- Behind an ASCII byte a text can be cut. -/
theorem exists_encode_of_append_ascii {before after : List UInt8} {cs : List Char}
    (h : before ++ after = encode cs) (hlast : ∀ a ∈ before.getLast?, a < 0x80) :
    ∃ front back, cs = front ++ back ∧ before = encode front ∧ after = encode back := by
  rcases List.eq_nil_or_concat before with rfl | ⟨init, a, rfl⟩
  · exact ⟨[], cs, rfl, rfl, h⟩
  · have ha : a < 0x80 := hlast a (by simp)
    have hchar : encode [Char.ofUInt8 a] = [a] := by
      rw [encode_cons, utf8EncodeChar_ofUInt8 ha, encode_nil, List.append_nil]
    rw [List.concat_eq_append, List.append_assoc] at h
    obtain ⟨front, rest, rfl, rfl, hrest⟩ :=
      exists_encode_of_append h (by simpa using isContinuation_of_lt ha)
    rw [← hchar] at hrest
    obtain ⟨back, rfl, hback⟩ := exists_encode_of_encode_append hrest
    refine ⟨front ++ [Char.ofUInt8 a], back, by simp, ?_, hback⟩
    rw [List.concat_eq_append, encode_append, hchar]

/-- In these bytes nothing continues an ASCII byte. -/
def IsSeparated (bytes : List UInt8) : Prop :=
  ∀ front a b back, bytes = front ++ a :: b :: back → a < 0x80 → isContinuation b = false

/-- In the bytes of a text nothing continues an ASCII byte. -/
theorem isSeparated_bytes (s : String) : IsSeparated (bytes s) := by
  intro front a b back h ha
  have hcut : (front ++ [a]) ++ b :: back = encode s.toList := by
    rw [← bytes, h, List.append_assoc]
    rfl
  obtain ⟨-, cs, -, -, hback⟩ := exists_encode_of_append_ascii hcut (by simpa using ha)
  cases cs with
  | nil => cases hback
  | cons c cs =>
    refine isContinuation_head c b ?_
    rw [encode_cons] at hback
    rw [← List.head?_append_of_ne_nil _ String.utf8EncodeChar_ne_nil, ← hback]
    rfl

theorem IsSeparated.of_append {front back : List UInt8} (h : IsSeparated (front ++ back)) :
    IsSeparated back := by
  rintro front' a b back' rfl
  exact h (front ++ front') a b back' (List.append_assoc ..).symm

end PathFormula.Utf8

/-! ### Small letters -/

namespace PathFormula.Byte

variable {b : UInt8}

theorem lower_of_not_isUpper {b : UInt8} (hb : ¬ isUpper b) : lower b = b := if_neg hb

theorem lower_of_le (hb : 0x80 ≤ b) : lower b = b := by
  refine lower_of_not_isUpper fun h => ?_
  rw [isUpper, Bool.and_eq_true, decide_eq_true_eq, decide_eq_true_eq] at h
  exact absurd (UInt8.le_trans hb h.2) (by decide)

/-- Making a letter small does the same to the byte and to the character. -/
theorem ofUInt8_lower : ∀ {b : UInt8}, b < 0x80 →
    lower b < 0x80 ∧ Char.ofUInt8 (lower b) = (Char.ofUInt8 b).toLower := by decide +kernel

end PathFormula.Byte

namespace PathFormula.Utf8

theorem utf8EncodeChar_toLower (c : Char) :
    String.utf8EncodeChar c.toLower = (String.utf8EncodeChar c).map Byte.lower := by
  by_cases hc : c.toNat < 0x80
  · obtain ⟨b, hb, rfl⟩ := exists_ofUInt8_eq hc
    obtain ⟨hlower, hchar⟩ := Byte.ofUInt8_lower hb
    rw [← hchar, utf8EncodeChar_ofUInt8 hb, utf8EncodeChar_ofUInt8 hlower]
    rfl
  · have hlower : c.toLower = c := by
      refine dif_neg ?_
      rintro ⟨-, hle⟩
      have hZ : c.toNat ≤ 90 := UInt32.le_iff_toNat_le.mp hle
      omega
    have hbytes : (String.utf8EncodeChar c).map Byte.lower = (String.utf8EncodeChar c).map id :=
      List.map_congr_left fun b hb => Byte.lower_of_le (le_of_mem_utf8EncodeChar hc b hb)
    rw [hlower, hbytes, List.map_id]

/-- Making the letters of a text small does the same to its bytes. -/
theorem bytes_toLower (s : String) : bytes s.toLower = (bytes s).map Byte.lower := by
  have hencode (cs : List Char) : encode (cs.map Char.toLower) = (encode cs).map Byte.lower := by
    induction cs with
    | nil => rfl
    | cons c cs ih =>
      rw [List.map_cons, encode_cons, ih, utf8EncodeChar_toLower, encode_cons, List.map_append]
  change encode (s.map Char.toLower).toList = _
  rw [String.toList_map, hencode, bytes]

end PathFormula.Utf8
