import Mathlib.Data.Nat.Digits.Defs
import PathFormula.Proofs.Bodies

/-!
# Surrogates

UTF-16 writes a character above U+FFFF with two units, a high surrogate and a low one.  In
a quoted text each half can be escaped by itself, so whether two escapes are one character
is seen only when the items are put in a row: a quoted text stands for the characters that
the units of its items encode one after the other, and a surrogate that has lost its
partner is read as U+FFFD.  The units of a character that stands there unescaped take part
in this as well, but a low surrogate of theirs never follows on an escape directly.

## Main definitions

* `Utf16.encode c` — the units of a character.
* `Utf16.Decodes us cs` — the characters that units encode, lone surrogates replaced.
* `Quoted.Item.units` — the units that an item contributes, by how it is written.

## Main results

* `Utf16.Decodes.unique` — units encode one list of characters only.
* `decodes_join` — values are joined to the characters that their units encode.
* `decode_eq_ok_iff_decodes` — **a quoted text stands for what the units of its items
  encode.**
-/

namespace PathFormula

namespace Utf16

variable {c c' : Char} {u w : Nat} {us us' : List Nat} {cs cs' : List Char}

/-- The units of a character: its code, or two surrogates if that has more than 16 bits. -/
def encode (c : Char) : List Nat :=
  if c.toNat < 0x10000 then [c.toNat]
  else [0xD800 + (c.toNat - 0x10000) / 0x400, 0xDC00 + (c.toNat - 0x10000) % 0x400]

/-- The units encode the characters, where U+FFFD stands for each surrogate that has no
partner. -/
inductive Decodes : List Nat → List Char → Prop
  | nil : Decodes [] []
  | char {us : List Nat} {cs : List Char} (c : Char) (h : Decodes us cs) :
    Decodes (encode c ++ us) (c :: cs)
  | lone {u : Nat} {us : List Nat} {cs : List Char} (hu : isHigh u ∨ isLow u)
    (hpair : ¬ (isHigh u ∧ ∃ w ∈ us.head?, isLow w)) (h : Decodes us cs) :
    Decodes (u :: us) ('\ufffd' :: cs)

/-! ### The units of a character -/

theorem toNat_lt (c : Char) : c.toNat < 0x110000 ∧ ¬ (0xD800 ≤ c.toNat ∧ c.toNat < 0xE000) := by
  have hvalid : c.toNat < 0xD800 ∨ 0xDFFF < c.toNat ∧ c.toNat < 0x110000 := c.valid
  omega

/-- A character has a single unit, which is no surrogate, or a pair of surrogates. -/
theorem encode_cases (c : Char) :
    (encode c = [c.toNat] ∧ isHigh c.toNat = false ∧ isLow c.toNat = false) ∨
      ∃ u w, encode c = [u, w] ∧ isHigh u ∧ isLow w ∧
        c.toNat = 0x10000 + (u - 0xD800) * 0x400 + (w - 0xDC00) := by
  obtain ⟨hlt, hsurrogate⟩ := toNat_lt c
  unfold encode
  split_ifs with hc
  · refine .inl ⟨rfl, ?_⟩
    simp only [isHigh, isLow, Bool.and_eq_false_iff, decide_eq_false_iff_not]
    omega
  · refine .inr ⟨_, _, rfl, ?_⟩
    simp only [isHigh, isLow, Bool.and_eq_true, decide_eq_true_eq]
    omega

/-- A code that a character can have is that of its character. -/
theorem toNat_ofNat (hu : u.isValidChar) : (Char.ofNat u).toNat = u := by
  rw [Char.ofNat, dif_pos hu]
  rfl

theorem toNat_join (hu : isHigh u) (hw : isLow w) :
    (join u w).toNat = 0x10000 + (u - 0xD800) * 0x400 + (w - 0xDC00) := by
  simp only [isHigh, isLow, Bool.and_eq_true, decide_eq_true_eq] at hu hw
  have hvalid : (0x10000 + (u - 0xD800) * 0x400 + (w - 0xDC00)).isValidChar :=
    .inr (by omega)
  rw [join, toNat_ofNat hvalid]

/-- A pair of surrogates are the units of the character they are joined to. -/
theorem encode_join (hu : isHigh u) (hw : isLow w) : encode (join u w) = [u, w] := by
  have hjoin := toNat_join hu hw
  simp only [isHigh, isLow, Bool.and_eq_true, decide_eq_true_eq] at hu hw
  have hhigh : 0xD800 + (0x10000 + (u - 0xD800) * 0x400 + (w - 0xDC00) - 0x10000) / 0x400 = u := by
    omega
  have hlow : 0xDC00 + (0x10000 + (u - 0xD800) * 0x400 + (w - 0xDC00) - 0x10000) % 0x400 = w := by
    omega
  rw [encode, hjoin, if_neg (by omega), hhigh, hlow]

/-- Any other unit is that of the character it stands for by itself. -/
theorem encode_single (hu : u < 0x10000) (hhigh : isHigh u = false) (hlow : isLow u = false) :
    encode (single u) = [u] := by
  have hsingle : single u = Char.ofNat u := by rw [single, hhigh, hlow]; rfl
  simp only [isHigh, isLow, Bool.and_eq_false_iff, decide_eq_false_iff_not] at hhigh hlow
  have hvalid : u.isValidChar := by
    by_cases h : u < 0xD800
    · exact .inl h
    · exact .inr (by omega)
  rw [hsingle, encode, toNat_ofNat hvalid, if_pos hu]

/-- Where the units of a character begin, no other character's do. -/
theorem encode_append_inj (h : encode c ++ us = encode c' ++ us') : c = c' ∧ us = us' := by
  rcases encode_cases c with ⟨hc, hhigh, -⟩ | ⟨u, w, hc, hu, hw, hcode⟩ <;>
    rcases encode_cases c' with ⟨hc', hhigh', -⟩ | ⟨u', w', hc', hu', hw', hcode'⟩ <;>
    rw [hc, hc'] at h
  · obtain ⟨hcc, hus⟩ := List.cons.inj h
    exact ⟨Char.toNat_inj.mp hcc, hus⟩
  · obtain ⟨hcu, -⟩ := List.cons.inj h
    rw [hcu, hu'] at hhigh
    cases hhigh
  · obtain ⟨huc, -⟩ := List.cons.inj h
    rw [huc, hhigh'] at hu
    cases hu
  · obtain ⟨huu, h⟩ := List.cons.inj h
    obtain ⟨hww, hus⟩ := List.cons.inj h
    rw [huu, hww, ← hcode'] at hcode
    exact ⟨Char.toNat_inj.mp hcode, hus⟩

/-- Where the units of a character begin, no surrogate is without its partner. -/
theorem isHigh_of_encode_append (h : encode c ++ us = u :: us') (hu : isHigh u ∨ isLow u) :
    isHigh u ∧ ∃ w ∈ us'.head?, isLow w := by
  rcases encode_cases c with ⟨hc, hhigh, hlow⟩ | ⟨u', w, hc, hhigh, hlow, -⟩
  · rw [hc] at h
    obtain ⟨rfl, -⟩ := List.cons.inj h
    simp [hhigh, hlow] at hu
  · rw [hc] at h
    obtain ⟨rfl, rfl⟩ := List.cons.inj h
    exact ⟨hhigh, w, rfl, hlow⟩

/-- The units of a character never begin with the second half of a pair. -/
theorem isLow_head?_encode_append (c : Char) (us : List Nat) :
    ∀ w ∈ (encode c ++ us).head?, isLow w = false := by
  rcases encode_cases c with ⟨hc, -, hlow⟩ | ⟨u, w, hc, hu, -⟩
  · simpa [hc] using hlow
  · simp only [isHigh, Bool.and_eq_true, decide_eq_true_eq] at hu
    simp only [hc, List.cons_append, List.head?_cons, Option.mem_some_iff, forall_eq', isLow,
      Bool.and_eq_false_iff, decide_eq_false_iff_not]
    omega

/-- A unit that is not joined to the next one is decoded by itself. -/
theorem Decodes.single (h : Decodes us cs) (hu : u < 0x10000)
    (hpair : ¬ (isHigh u ∧ ∃ w ∈ us.head?, isLow w)) :
    Decodes (u :: us) (Utf16.single u :: cs) := by
  by_cases hsurrogate : isHigh u ∨ isLow u
  · have hsingle : Utf16.single u = '\ufffd' := by
      rw [Utf16.single, if_pos (by simpa using hsurrogate)]
    rw [hsingle]
    exact .lone hsurrogate hpair h
  · rw [not_or, Bool.not_eq_true, Bool.not_eq_true] at hsurrogate
    have hchar := Decodes.char (Utf16.single u) h
    rwa [encode_single hu hsurrogate.1 hsurrogate.2] at hchar

/-- Units encode one list of characters only. -/
theorem Decodes.unique (h : Decodes us cs) (h' : Decodes us cs') : cs = cs' := by
  induction h generalizing cs' with
  | nil =>
    generalize hus : ([] : List Nat) = us at h'
    cases h' with
    | nil => rfl
    | char c h' =>
      rcases encode_cases c with ⟨hc, -⟩ | ⟨u, w, hc, -⟩ <;> simp [hc] at hus
    | lone hu hpair h' => cases hus
  | @char us cs c h ih =>
    generalize hus : encode c ++ us = us₀ at h'
    cases h' with
    | nil =>
      rcases encode_cases c with ⟨hc, -⟩ | ⟨u, w, hc, -⟩ <;> simp [hc] at hus
    | char c' h' =>
      obtain ⟨rfl, rfl⟩ := encode_append_inj hus
      rw [ih h']
    | lone hu hpair h' => exact absurd (isHigh_of_encode_append hus hu) hpair
  | @lone u us cs hu hpair h ih =>
    generalize hus : u :: us = us₀ at h'
    cases h' with
    | nil => cases hus
    | char c h' => exact absurd (isHigh_of_encode_append hus.symm hu) hpair
    | lone hu' hpair' h' =>
      obtain ⟨rfl, rfl⟩ := List.cons.inj hus
      rw [ih h']

end Utf16

namespace Hex

/-- The digits of hexadecimal numbers, each at the place of its value. -/
def digits : List Char := "0123456789abcdef".toList

/-- The number that four digits write. -/
def unit (w x y z : Char) : Nat :=
  Nat.ofDigits 16 ([z, y, x, w].map fun c => digits.idxOf c.toLower)

end Hex

namespace Quoted

variable {border : UInt8} {i : Item} {items : List Item} {vs : List Value} {done : List Char}

/-- The units of what is written with a backslash: five letters stand for control characters,
and any other character for itself. -/
def escapedUnits : Char → List Nat
  | 'b' => [0x08]
  | 'f' => [0x0C]
  | 'n' => [0x0A]
  | 'r' => [0x0D]
  | 't' => [0x09]
  | c => Utf16.encode c

/-- The units of an item, by how it is written: those of a character, which may stand behind
a backslash, or the single unit that four digits write. -/
def Item.units (i : Item) : List Nat :=
  match i.source with
  | [c] => Utf16.encode c
  | [_, c] => escapedUnits c
  | [_, _, w, x, y, z] => [Hex.unit w x y z]
  | _ => []

/-- The units of a value. -/
def Value.units : Value → List Nat
  | .char c => Utf16.encode c
  | .unit u => [u]

/-- A digit has the value of its place among the digits. -/
theorem value?_eq {c : Char} {n : Nat} (h : Hex.value? c = some n) :
    n = Hex.digits.idxOf c.toLower ∧ n < 16 := by
  have hbyte : ∀ b : UInt8, Byte.isHexDigit b → ∀ n ∈ Hex.value? (Char.ofUInt8 b),
      n = Hex.digits.idxOf (Char.ofUInt8 b).toLower ∧ n < 16 := by decide +kernel
  obtain ⟨b, hb, rfl⟩ := isSome_value?_iff.mp (Option.isSome_of_eq_some h)
  exact hbyte b hb n h

/-- Four digits write a number of 16 bits. -/
theorem four?_eq {w x y z : Char} {u : Nat} (h : Hex.four? w x y z = some u) :
    u = Hex.unit w x y z ∧ u < 0x10000 := by
  unfold Hex.four? at h
  split at h
  next a b c d ha hb hc hd =>
    cases h
    obtain ⟨ha, ha'⟩ := value?_eq ha
    obtain ⟨hb, hb'⟩ := value?_eq hb
    obtain ⟨hc, hc'⟩ := value?_eq hc
    obtain ⟨hd, hd'⟩ := value?_eq hd
    rw [Hex.unit, List.map_cons, List.map_cons, List.map_cons, List.map_cons, List.map_nil,
      ← ha, ← hb, ← hc, ← hd]
    simp only [Nat.ofDigits_cons, Nat.ofDigits_nil]
    omega
  next => cases h

/-- What an item is read as has the units of what is written. -/
theorem IsItem.units_eq (h : IsItem border i) : i.units = i.value.units := by
  cases h with
  | plain hborder hbackslash hcontrol => rfl
  | @escape e c he =>
    unfold escaped? at he
    split at he <;> cases he <;> rfl
  | unicode hu =>
    obtain ⟨rfl, -⟩ := four?_eq hu
    rfl

/-! ### Values and their units -/

theorem IsItem.lt_of_value_eq {u : Nat} (h : IsItem border i) (hu : i.value = .unit u) :
    u < 0x10000 := by
  cases h with
  | plain | escape => cases hu
  | unicode hdigits =>
    cases hu
    exact (four?_eq hdigits).2

/-- Values are joined to the characters that their units encode. -/
theorem decodes_join (done : List Char) (vs : List Value)
    (hvs : ∀ u, .unit u ∈ vs → u < 0x10000) :
    ∃ cs, joinOnto done vs = done.reverse ++ cs ∧ Utf16.Decodes (vs.flatMap Value.units) cs := by
  fun_induction joinOnto done vs with
  | case1 done => exact ⟨[], (List.append_nil _).symm, .nil⟩
  | case2 done c vs ih =>
    obtain ⟨cs, hjoin, hdecodes⟩ := ih fun u hu => hvs u (List.mem_cons_of_mem _ hu)
    exact ⟨c :: cs, by simp [hjoin], .char c hdecodes⟩
  | case3 done u w vs hpair ih =>
    rw [Bool.and_eq_true] at hpair
    obtain ⟨cs, hjoin, hdecodes⟩ :=
      ih fun u hu => hvs u (List.mem_cons_of_mem _ (List.mem_cons_of_mem _ hu))
    have hchar := Utf16.Decodes.char (Utf16.join u w) hdecodes
    rw [Utf16.encode_join hpair.1 hpair.2] at hchar
    exact ⟨Utf16.join u w :: cs, by simp [hjoin], hchar⟩
  | case4 done u w vs hpair ih =>
    rw [Bool.and_eq_true] at hpair
    obtain ⟨cs, hjoin, hdecodes⟩ := ih fun u hu => hvs u (List.mem_cons_of_mem _ hu)
    have hsingle := hdecodes.single (hvs u List.mem_cons_self) (by
      rintro ⟨hhigh, w', hw', hlow⟩
      cases hw'
      exact hpair ⟨hhigh, hlow⟩)
    exact ⟨Utf16.single u :: cs, by simp [hjoin], hsingle⟩
  | case5 done u vs hnext ih =>
    obtain ⟨cs, hjoin, hdecodes⟩ := ih fun u hu => hvs u (List.mem_cons_of_mem _ hu)
    have hsingle := hdecodes.single (hvs u List.mem_cons_self) (by
      -- what comes next is no unit that could be joined
      rintro ⟨-, w, hw, hlow⟩
      cases vs with
      | nil => cases hw
      | cons v vs =>
        cases v with
        | char c =>
          rw [List.flatMap_cons] at hw
          rw [Utf16.isLow_head?_encode_append c _ w hw] at hlow
          cases hlow
        | unit w => exact hnext w vs rfl)
    exact ⟨Utf16.single u :: cs, by simp [hjoin], hsingle⟩

/-- The units of a row of items encode the characters that their values are joined to. -/
theorem IsItems.decodes_join {cs : List Char} (h : IsItems border items cs) :
    Utf16.Decodes (items.flatMap Item.units) (join (items.map Item.value)) := by
  have hunits : items.flatMap Item.units = (items.map Item.value).flatMap Value.units := by
    rw [List.flatMap_map]
    exact List.flatMap_congr fun i hi => (h.isItem i hi).units_eq
  obtain ⟨cs, hjoin, hdecodes⟩ := Quoted.decodes_join [] (items.map Item.value) (by
    intro u hu
    obtain ⟨i, hi, hvalue⟩ := List.mem_map.mp hu
    exact (h.isItem i hi).lt_of_value_eq hvalue)
  rw [hunits, join, hjoin]
  exact hdecodes

/-- **A quoted text stands for what the units of its items encode.**

A text can be decoded exactly if it is a row of items between two equal borders, which are
ASCII.  Its units are those of its items from left to right, and it stands for the
characters that they encode, with U+FFFD for each surrogate that has no partner. -/
theorem decode_eq_ok_iff_decodes {s t : String} : decode border s = .ok t ↔
    ∃ items body, border < 0x80 ∧
      s.toList = Char.ofUInt8 border :: (body ++ [Char.ofUInt8 border]) ∧
      IsItems border items body ∧ Utf16.Decodes (items.flatMap Item.units) t.toList := by
  constructor
  · intro h
    have hborder : border < 0x80 := lt_of_decode_eq_ok h
    obtain ⟨items, body, hs, hitems, rfl⟩ := (decode_eq_ok_iff hborder).mp h
    refine ⟨items, body, hborder, hs, hitems, ?_⟩
    rw [String.toList_ofList]
    exact hitems.decodes_join
  · rintro ⟨items, body, hborder, hs, hitems, hdecodes⟩
    refine (decode_eq_ok_iff hborder).mpr ⟨items, body, hs, hitems, ?_⟩
    rw [← hdecodes.unique hitems.decodes_join, String.ofList_toList]

/-- A high surrogate joins the second of two others, whichever way they are written. -/
example : decode '"'.toUInt8 "\"\\ud83d\\uD83D\\ude00\\u0041\"" = .ok "\ufffd😀A" := by
  decide +kernel

end Quoted

end PathFormula
