import PathFormula.Proofs.Encoding
import PathFormula.Proofs.Items

/-!
# Decoding in one pass

A quoted text is decoded in one pass, where a high surrogate looks ahead for the escape of a
low one.  What may stand in such a text, and what it stands for, is more easily said of its
items, the surrogates being joined when all items have been read.  Both come to the same: if
no escape of a low surrogate comes next in the characters, no low surrogate comes next among
the values.

## Main results

* `isLow_of_low?_eq_none` — what the look-ahead does not find does not come next.
* `decodeFrom_eq`, `decodeFrom_eq_readItems` — **to decode is to read the items and to join
  their values.**
* `decode_eq_ok_iff` — what can be decoded, and to what.
-/

namespace PathFormula.Quoted

variable {border : UInt8} {c e : Char} {cs rest : List Char} {i : Item} {items : List Item}
  {u w n offset : Nat}

/-! ### Widths -/

/-- An ASCII character is written with one byte. -/
theorem length_utf8EncodeChar_of_lt (hc : c.toNat < 0x80) :
    (String.utf8EncodeChar c).length = 1 := by
  rw [String.length_utf8EncodeChar, Char.utf8Size_eq_one_iff]
  exact Nat.le_of_lt_succ hc

/-- What has a meaning behind a backslash is ASCII. -/
theorem toNat_lt_of_escaped? (h : escaped? e = some c) : e.toNat < 0x80 := by
  unfold escaped? at h
  split at h <;> first | decide | cases h

/-- A hexadecimal digit is ASCII. -/
theorem toNat_lt_of_value? (h : (Hex.value? c).isSome) : c.toNat < 0x80 := by
  unfold Hex.value? at h
  -- each of the three ranges ends within ASCII
  split_ifs at h with hrange hrange hrange
  · exact Nat.lt_of_le_of_lt hrange.2 (by decide)
  · exact Nat.lt_of_le_of_lt hrange.2 (by decide)
  · exact Nat.lt_of_le_of_lt hrange.2 (by decide)
  · cases h

theorem width_escape (he : escaped? e = some c) : Item.width ⟨['\\', e], .char c⟩ = 2 := by
  have hlength := length_utf8EncodeChar_of_lt (toNat_lt_of_escaped? he)
  rw [Item.width, Utf8.encode_cons, List.length_append, Utf8.encode_cons, List.length_append,
    hlength]
  rfl

/-- Four characters that write a number are ASCII. -/
theorem toNat_lt_of_four? {a b c d : Char} (hu : Hex.four? a b c d = some u) :
    a.toNat < 0x80 ∧ b.toNat < 0x80 ∧ c.toNat < 0x80 ∧ d.toNat < 0x80 := by
  unfold Hex.four? at hu
  split at hu
  next ha hb hc hd =>
    exact ⟨toNat_lt_of_value? (by simp [ha]), toNat_lt_of_value? (by simp [hb]),
      toNat_lt_of_value? (by simp [hc]), toNat_lt_of_value? (by simp [hd])⟩
  next => cases hu

theorem width_unicode {a b c d : Char} (hu : Hex.four? a b c d = some u) :
    Item.width ⟨['\\', 'u', a, b, c, d], .unit u⟩ = 6 := by
  obtain ⟨ha, hb, hc, hd⟩ := toNat_lt_of_four? hu
  simp only [Item.width, Utf8.encode_cons, Utf8.encode_nil, List.length_append,
    length_utf8EncodeChar_of_lt, ha, hb, hc, hd]
  rfl

/-! ### Items -/

theorem readItemsFrom_eq_map (offset : Nat) (done : List Item) (cs : List Char) :
    readItemsFrom border offset done cs =
      (readItemsFrom border offset [] cs).map (done.reverse ++ ·) := by
  induction hn : cs.length using Nat.strong_induction_on generalizing offset done cs with
  | _ n ih =>
    cases cs with
    | nil => simp [readItemsFrom, Except.map]
    | cons c rest =>
      rw [readItemsFrom, readItemsFrom]
      split
      next i after hread =>
        have hshort : after.length < n := by
          rw [← hn]
          exact Nat.lt_succ_of_le (length_readItem_le hread)
        rw [ih _ hshort _ (i :: done) after rfl, ih _ hshort _ [i] after rfl]
        cases readItemsFrom border (offset + i.width) [] after <;> simp [Except.map]
      next => rfl

/-- An item stands in front of the others. -/
theorem readItemsFrom_cons (hread : readItem border c cs = .ok (i, rest)) (offset : Nat) :
    readItemsFrom border offset [] (c :: cs) =
      (readItemsFrom border (offset + i.width) [] rest).map (i :: ·) := by
  rw [readItemsFrom, hread]
  exact readItemsFrom_eq_map _ [i] rest

/-- Where no item stands the reading is at fault. -/
theorem readItemsFrom_error (hread : readItem border c cs = .error n) (offset : Nat) :
    readItemsFrom border offset [] (c :: cs) = .error (offset + n) := by
  rw [readItemsFrom, hread]

/-- Four characters that write a number are followed by the others. -/
theorem digits?_eq_some (h : digits? cs = some u) :
    ∃ a b c d, Hex.four? a b c d = some u ∧ cs = a :: b :: c :: d :: cs.drop 4 := by
  unfold digits? at h
  split at h
  next a b c d rest => exact ⟨a, b, c, d, h, rfl⟩
  next => cases h

theorem readUnicode_eq_none (h : digits? cs = none) : readUnicode cs = none := by
  unfold readUnicode
  split
  next a b c d rest =>
    rw [digits?] at h
    rw [h]
  next => rfl

/-- The escape of a low surrogate is what is looked for. -/
theorem low?_eq_some_iff : low? cs = some w ↔
    ∃ rest, digits? rest = some w ∧ Utf16.isLow w ∧ cs = '\\' :: 'u' :: rest := by
  constructor
  · intro h
    unfold low? at h
    split at h
    next rest =>
      rw [Option.filter_eq_some_iff] at h
      exact ⟨rest, h.1, h.2, rfl⟩
    next => cases h
  · rintro ⟨rest, hw, hlow, rfl⟩
    simp [low?, hw, hlow]

/-! ### Values -/

/-- A unit that no low surrogate completes stands for a character by itself. -/
theorem joinOnto_unit (done : List Char) {vs : List Value}
    (h : Utf16.isHigh u → ∀ w, vs.head? = some (.unit w) → Utf16.isLow w = false) :
    joinOnto done (.unit u :: vs) = joinOnto (Utf16.single u :: done) vs := by
  cases vs with
  | nil => rfl
  | cons v vs =>
    cases v with
    | char c => rfl
    | unit x =>
      have hpair : ¬ (Utf16.isHigh u && Utf16.isLow x) := by
        rw [Bool.and_eq_true]
        rintro ⟨hu, hx⟩
        rw [h hu x rfl] at hx
        cases hx
      rw [joinOnto, if_neg hpair]

/-- What the look-ahead does not find does not come next. -/
theorem isLow_of_low?_eq_none (hlow : low? cs = none) (h : IsItems border items cs) :
    ∀ w, (items.map Item.value).head? = some (.unit w) → Utf16.isLow w = false := by
  intro w hw
  cases items with
  | nil => cases hw
  | cons i more =>
    obtain ⟨hi, -, hsource⟩ := h.of_cons
    cases hi with
    | plain | escape => cases hw
    | @unicode a b c d u hu =>
      cases hw
      by_contra hne
      have hdigits : digits? (a :: b :: c :: d :: more.flatMap Item.source) = some w := hu
      have hsome : low? cs = some w :=
        low?_eq_some_iff.mpr ⟨_, hdigits, by simpa using hne, hsource.symm⟩
      rw [hlow] at hsome
      cases hsome

/-! ### One pass -/

/-- The escape of a unit stands in front of the other items. -/
theorem readItemsFrom_unicode (border : UInt8) (hu : digits? cs = some u) (offset : Nat) :
    ∃ i : Item, i.value = .unit u ∧ readItemsFrom border offset [] ('\\' :: 'u' :: cs) =
      (readItemsFrom border (offset + 6) [] (cs.drop 4)).map (i :: ·) := by
  obtain ⟨a, b, c, d, hfour, hcs⟩ := digits?_eq_some hu
  have hread : readItem border '\\' ('u' :: cs) = .ok (_, cs.drop 4) :=
    readItem_eq_ok_iff.mpr ⟨.unicode hfour, by rw [hcs]; rfl⟩
  rw [readItemsFrom_cons hread, width_unicode hfour]
  exact ⟨_, rfl, rfl⟩

/-- A unit with the escape that it takes along is what it is joined to. -/
theorem map_joinOnto_unit {more : Nat} (hunit : decodeUnit u cs = (c, more)) (offset : Nat)
    (out : List Char) :
    (readItemsFrom border offset [] cs).map
        (fun items => joinOnto out (.unit u :: items.map Item.value)) =
      (readItemsFrom border (offset + more) [] (cs.drop more)).map
        fun items => joinOnto (c :: out) (items.map Item.value) := by
  unfold decodeUnit at hunit
  split at hunit
  next hhigh =>
    split at hunit
    next w hlow =>
      obtain ⟨rfl, rfl⟩ := Prod.mk.inj hunit
      obtain ⟨rest, hw, hw', rfl⟩ := low?_eq_some_iff.mp hlow
      obtain ⟨i, hi, hread⟩ := readItemsFrom_unicode border hw offset
      have hpair : Utf16.isHigh u && Utf16.isLow w := by rw [hhigh, hw']; rfl
      rw [hread, List.drop_succ_cons, List.drop_succ_cons]
      cases readItemsFrom border (offset + 6) [] (rest.drop 4) with
      | error n => rfl
      | ok items => simp [Except.map, hi, joinOnto, hpair]
    next hlow =>
      obtain ⟨rfl, rfl⟩ := Prod.mk.inj hunit
      have hsingle : Utf16.single u = '\ufffd' := by rw [Utf16.single, hhigh]; rfl
      rw [Nat.add_zero, List.drop_zero]
      cases hitems : readItemsFrom border offset [] cs with
      | error n => rfl
      | ok items =>
        obtain ⟨row, rfl, hrow⟩ := readItemsFrom_eq_ok_iff.mp hitems
        have hnext := isLow_of_low?_eq_none hlow hrow
        rw [Except.map, joinOnto_unit out fun _ => hnext, hsingle]
        rfl
  next hhigh =>
    obtain ⟨rfl, rfl⟩ := Prod.mk.inj hunit
    simp only [joinOnto_unit out fun h => absurd h hhigh]
    rfl

/-- **Decoding on is reading the items and joining their values.** -/
theorem decodeFrom_eq (border : UInt8) (offset : Nat) (out cs : List Char) :
    decodeFrom border offset out cs =
      (readItemsFrom border offset [] cs).map fun items => joinOnto out (items.map Item.value) := by
  fun_induction decodeFrom border offset out cs with
  | case1 offset out => simp [readItemsFrom, Except.map, joinOnto]
  | case2 offset out => rw [readItemsFrom_error (n := 0) rfl]; rfl
  | case3 offset out rest u hu c more hunit ih =>
    obtain ⟨i, hi, hread⟩ := readItemsFrom_unicode border hu offset
    rw [ih, hread, ← List.drop_drop, ← map_joinOnto_unit hunit]
    cases readItemsFrom border (offset + 6) [] (rest.drop 4) <;> simp [Except.map, hi]
  | case4 offset out rest hu =>
    have hread : readItem border '\\' ('u' :: rest) = .error 0 := by
      simp [readItem, readEscape, readUnicode_eq_none hu]
    rw [readItemsFrom_error hread]
    rfl
  | case5 offset out e rest hne c he ih =>
    have hread : readItem border '\\' (e :: rest) = .ok (⟨['\\', e], .char c⟩, rest) :=
      readItem_eq_ok_iff.mpr ⟨.escape he, rfl⟩
    rw [ih, readItemsFrom_cons hread, width_escape he]
    cases readItemsFrom border (offset + 2) [] rest <;> simp [Except.map, joinOnto]
  | case6 offset out e rest hne he =>
    have hread : readItem border '\\' (e :: rest) = .error 1 := by
      simp [readItem, readEscape, he]
    rw [readItemsFrom_error hread]
    rfl
  | case7 offset out c rest hbackslash hc =>
    have hread : readItem border c rest = .error 0 := by
      rw [readItem, if_neg hbackslash, if_pos hc]
    rw [readItemsFrom_error hread]
    rfl
  | case8 offset out c rest hbackslash hc ih =>
    have hread : readItem border c rest = .ok (⟨[c], .char c⟩, rest) := by
      rw [readItem, if_neg hbackslash, if_neg hc]
    rw [ih, readItemsFrom_cons hread]
    change _ = ((readItemsFrom border (offset + (Utf8.encode [c]).length) [] rest).map _).map _
    cases readItemsFrom border (offset + (Utf8.encode [c]).length) [] rest <;>
      simp [Except.map, joinOnto]

/-- **A body is decoded to what the values of its items are joined to.** -/
theorem decodeFrom_eq_readItems (border : UInt8) (body : List Char) :
    decodeFrom border 1 [] body =
      (readItems border body).map fun items => join (items.map Item.value) :=
  decodeFrom_eq border 1 [] body

/-! ### Borders -/

/-- A text that begins and ends with an ASCII byte has its character at both ends. -/
theorem exists_toList_eq {s : String} (hborder : border < 0x80)
    (hlength : ¬ (Utf8.bytes s).length < 2) (hhead : (Utf8.bytes s).head? = some border)
    (hlast : (Utf8.bytes s).getLast? = some border) :
    ∃ body, s.toList = Char.ofUInt8 border :: (body ++ [Char.ofUInt8 border]) := by
  have hchar : Utf8.encode [Char.ofUInt8 border] = [border] := by
    simp [Utf8.utf8EncodeChar_ofUInt8 hborder]
  obtain ⟨more, hmore⟩ : ∃ more, Utf8.bytes s = border :: (more ++ [border]) := by
    obtain ⟨tail, htail⟩ := List.head?_eq_some_iff.mp hhead
    rw [htail] at hlast hlength ⊢
    rcases List.eq_nil_or_concat tail with rfl | ⟨more, b, rfl⟩
    · simp at hlength
    · rw [List.concat_eq_append] at hlast ⊢
      rw [← List.cons_append, List.getLast?_concat, Option.some_inj] at hlast
      exact ⟨more, by rw [hlast]⟩
  have happend : [border] ++ (more ++ [border]) = Utf8.encode s.toList := hmore.symm
  obtain ⟨back, hback, hrest⟩ :=
    Utf8.exists_encode_of_ascii_append happend (by simpa using hborder)
  obtain ⟨body, last, rfl, -, hend⟩ := Utf8.exists_encode_of_append hrest
    (by simpa using Utf8.isContinuation_of_lt hborder)
  -- what is encoded by the last byte is its character
  have hlast : last = [Char.ofUInt8 border] := by
    rw [← Utf8.decode_encode last, ← hend, ← hchar, Utf8.decode_encode]
  exact ⟨body, by rw [hback, hlast]; rfl⟩

/-- Only between ASCII borders can anything be decoded. -/
theorem lt_of_decode_eq_ok {s t : String} (h : decode border s = .ok t) : border < 0x80 := by
  unfold decode at h
  dsimp only at h
  split at h
  next => cases h
  next hborders =>
    simp only [not_or, Decidable.not_not] at hborders
    exact Utf8.lt_of_head?_of_getLast? hborders.2.1 hborders.2.2

/-- What can be decoded: a row of items between two borders. -/
theorem decode_eq_ok_iff {s t : String} (hborder : border < 0x80) :
    decode border s = .ok t ↔
      ∃ items body, s.toList = Char.ofUInt8 border :: (body ++ [Char.ofUInt8 border]) ∧
        IsItems border items body ∧ t = String.ofList (join (items.map Item.value)) := by
  have hchar := Utf8.utf8EncodeChar_ofUInt8 hborder
  constructor
  · intro h
    unfold decode at h
    dsimp only at h
    split at h
    next => cases h
    next hborders =>
      simp only [not_or, Decidable.not_not] at hborders
      obtain ⟨body, hbody⟩ := exists_toList_eq hborder hborders.1 hborders.2.1 hborders.2.2
      rw [hbody, List.tail_cons, List.dropLast_concat, decodeFrom_eq_readItems] at h
      cases hitems : readItems border body with
      | error o =>
        rw [hitems] at h
        cases h
      | ok items =>
        rw [hitems] at h
        cases h
        exact ⟨items, body, hbody, readItems_eq_ok_iff.mp hitems, rfl⟩
  · rintro ⟨items, body, hs, hitems, rfl⟩
    have hbytes : Utf8.bytes s = border :: (Utf8.encode body ++ [border]) := by
      simp [Utf8.bytes, hs, hchar]
    have hborders : ¬ ((Utf8.bytes s).length < 2 ∨ (Utf8.bytes s).head? ≠ some border ∨
        (Utf8.bytes s).getLast? ≠ some border) := by
      rw [hbytes, ← List.cons_append, List.getLast?_concat]
      simp
    have hread : readItems border s.toList.tail.dropLast = .ok items := by
      rw [hs, List.tail_cons, List.dropLast_concat]
      exact readItems_eq_ok_iff.mpr hitems
    rw [decode, if_neg hborders, decodeFrom_eq_readItems, hread]
    rfl

end PathFormula.Quoted
