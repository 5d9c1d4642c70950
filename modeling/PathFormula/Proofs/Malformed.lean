import PathFormula.Proofs.Blame
import PathFormula.Proofs.Bodies

/-!
# The first fault of a quoted text

A quoted text that cannot be decoded lacks one of its borders, or there is a place between
them where no item stands.  What is reported is the first such place from the left, since
all that stands in front of it is a row of items.  The fault is placed on the first byte of
what should have been an item, and on the second one if that is a letter which no
backslash may stand in front of.

The border may be any byte.  If it is not ASCII no text has it at both ends; and a
backslash, a letter of an escape or a digit is a border like any other, which only counts
where an item begins.

## Main definitions

* `Quoted.IsBordered border s` — the text begins and ends with the border.
* `Quoted.IsMalformed border cs n` — in front of the characters no item stands.
* `Quoted.IsFirstFault border body o` — the first place of a body where no item stands.
* `Quoted.IsFault border s o` — what a text is refused for, and where.

## Main results

* `readItem_eq_error_iff`, `readItems_eq_error_iff` — what cannot be read as an item, or as
  a row of them.
* `IsFault.isBoundary` — a fault is at a character of the text.
* `decode_eq_error_iff` — **a quoted text is refused for its first fault.**
-/

namespace PathFormula.Quoted

variable {border : UInt8} {c e : Char} {cs rest body : List Char} {i : Item} {n o : Nat}
  {s : String}

/-- The text begins and ends with the border, and the two are not the same byte of it. -/
structure IsBordered (border : UInt8) (s : String) : Prop where
  two_le : 2 ≤ (Utf8.bytes s).length
  head?_eq : (Utf8.bytes s).head? = some border
  getLast?_eq : (Utf8.bytes s).getLast? = some border

/-- In front of the characters no item stands, and the fault is `n` bytes behind the first
of them. -/
inductive IsMalformed (border : UInt8) : List Char → Nat → Prop
  /-- The border, unless it is a backslash, which always begins an escape. -/
  | border {c : Char} {rest : List Char} (hborder : c.toNat = border.toNat)
    (hbackslash : c ≠ '\\') : IsMalformed border (c :: rest) 0
  /-- A control character. -/
  | control {c : Char} {rest : List Char} (hcontrol : c < ' ') : IsMalformed border (c :: rest) 0
  /-- A backslash with nothing behind it. -/
  | ended : IsMalformed border ['\\'] 0
  /-- A `\u` without four digits behind it. -/
  | digits {rest : List Char} (h : ∀ w x y z more, rest = w :: x :: y :: z :: more →
      ¬ (IsHexChar w ∧ IsHexChar x ∧ IsHexChar y ∧ IsHexChar z)) :
    IsMalformed border ('\\' :: 'u' :: rest) 0
  /-- A backslash with a letter that means nothing behind it. -/
  | escape {e : Char} {rest : List Char}
    (he : e ∉ ['"', '\'', '\\', '/', 'b', 'f', 'n', 'r', 't', 'u']) :
    IsMalformed border ('\\' :: e :: rest) 1

/-- The first place of a body where no item stands has a fault `o` bytes from the front. -/
inductive IsFirstFault (border : UInt8) (body : List Char) : Nat → Prop
  | intro {items : List Item} {front rest : List Char} {n : Nat} (hbody : body = front ++ rest)
    (hitems : IsItems border items front) (hrest : IsMalformed border rest n) :
    IsFirstFault border body ((Utf8.encode front).length + n)

/-- What a quoted text is refused for, with its place in the text. -/
inductive IsFault (border : UInt8) (s : String) : Nat → Prop
  /-- A border that is not there. -/
  | border (h : ¬ IsBordered border s) : IsFault border s 0
  /-- The first fault of what stands between the borders. -/
  | body {body : List Char} {o : Nat} (hs : Utf8.bytes s = border :: (Utf8.encode body ++ [border]))
    (ho : IsFirstFault border body o) : IsFault border s (1 + o)

/-! ### One item -/

/-- A letter means nothing behind a backslash if it is none of these. -/
theorem escaped?_eq_none_iff :
    escaped? e = none ↔ e ∉ ['"', '\'', '\\', '/', 'b', 'f', 'n', 'r', 't'] := by
  constructor
  · intro h he
    have hletters : ['"', '\'', '\\', '/', 'b', 'f', 'n', 'r', 't'].all
        fun e => (escaped? e).isSome := by decide
    have hsome := List.all_eq_true.mp hletters e he
    rw [h] at hsome
    cases hsome
  · intro he
    unfold escaped?
    split
    case h_10 => rfl
    all_goals simp at he

theorem readUnicode_eq_none_iff : readUnicode cs = none ↔
    ∀ w x y z more, cs = w :: x :: y :: z :: more →
      ¬ (IsHexChar w ∧ IsHexChar x ∧ IsHexChar y ∧ IsHexChar z) := by
  rw [Option.eq_none_iff_forall_ne_some]
  constructor
  · rintro h w x y z more rfl hdigits
    obtain ⟨u, hu⟩ := exists_four?_iff.mpr hdigits
    exact h _ (readUnicode_eq_some_iff.mpr ⟨w, x, y, z, u, hu, rfl, rfl⟩)
  · rintro h ⟨i, rest⟩ hread
    obtain ⟨w, x, y, z, u, hu, hcs, -⟩ := readUnicode_eq_some_iff.mp hread
    exact h w x y z rest hcs (exists_four?_iff.mp ⟨u, hu⟩)

/-- No item is read where none stands. -/
theorem readItem_eq_error_iff :
    readItem border c cs = .error n ↔ IsMalformed border (c :: cs) n := by
  constructor
  · intro h
    unfold readItem at h
    split at h
    next hc =>
      rw [hc]
      unfold readEscape at h
      split at h
      next =>
        cases h
        exact .ended
      next rest =>
        split at h
        next => cases h
        next hnone =>
          cases h
          exact .digits (readUnicode_eq_none_iff.mp hnone)
      next e rest hu =>
        split at h
        next => cases h
        next hnone =>
          cases h
          refine .escape fun he => ?_
          have hletters := escaped?_eq_none_iff.mp hnone
          simp only [List.mem_cons, List.not_mem_nil, or_false] at he hletters
          grind
    next hc =>
      split at h
      next hfault =>
        cases h
        rcases hfault with hborder | hcontrol
        · exact .border hborder hc
        · exact .control hcontrol
      next => cases h
  · intro h
    cases h with
    | border hborder hbackslash => rw [readItem, if_neg hbackslash, if_pos (.inl hborder)]
    | control hcontrol =>
      have hbackslash : c ≠ '\\' := by
        rintro rfl
        revert hcontrol
        decide
      rw [readItem, if_neg hbackslash, if_pos (.inr hcontrol)]
    | ended => rfl
    | digits h =>
      rw [readItem, if_pos rfl, readEscape, readUnicode_eq_none_iff.mpr h]
    | @escape e rest he =>
      have hnone : escaped? e = none := by
        refine escaped?_eq_none_iff.mpr fun hletters => he ?_
        simp only [List.mem_cons, List.not_mem_nil, or_false] at hletters ⊢
        grind
      have hu : e ≠ 'u' := by
        rintro rfl
        exact he (by decide)
      rw [readItem, if_pos rfl, readEscape, hnone]
      exact hu

/-! ### A row of items -/

/-- An item is read, whatever comes behind it. -/
theorem IsItem.exists_readItem (hi : IsItem border i) (cs : List Char) :
    ∃ c more, i.source ++ cs = c :: more ∧ readItem border c more = .ok (i, cs) := by
  obtain ⟨c, more, hc⟩ := List.exists_cons_of_ne_nil hi.source_ne_nil
  have hcs : i.source ++ cs = c :: (more ++ cs) := by rw [hc, List.cons_append]
  exact ⟨c, _, hcs, readItem_eq_ok_iff.mpr ⟨hi, hcs⟩⟩

/-- Only one item stands in front of the characters. -/
theorem IsItem.append_inj {j : Item} (hi : IsItem border i) (hj : IsItem border j)
    (h : i.source ++ cs = j.source ++ rest) : i = j ∧ cs = rest := by
  obtain ⟨c, more, hcs, hread⟩ := hi.exists_readItem cs
  rw [hcs] at h
  rw [readItem_eq_ok_iff.mpr ⟨hj, h.symm⟩] at hread
  cases hread
  exact ⟨rfl, rfl⟩

/-- Where an item stands, nothing is at fault. -/
theorem IsItem.not_isMalformed (hi : IsItem border i) :
    ¬ IsMalformed border (i.source ++ cs) n := by
  intro h
  obtain ⟨c, more, hcs, hread⟩ := hi.exists_readItem cs
  rw [hcs, ← readItem_eq_error_iff, hread] at h
  cases h

theorem isFirstFault_nil : ¬ IsFirstFault border [] o := by
  rintro ⟨hbody, -, hrest⟩
  obtain ⟨-, rfl⟩ := List.append_eq_nil_iff.mp hbody.symm
  cases hrest

/-- Behind an item the first fault is the first one of what follows. -/
theorem isFirstFault_append_iff (hi : IsItem border i) :
    IsFirstFault border (i.source ++ cs) o ↔
      ∃ n, IsFirstFault border cs n ∧ o = i.width + n := by
  constructor
  · rintro @⟨items, front, rest, n, hbody, hitems, hrest⟩
    cases items with
    | nil =>
      obtain rfl : [] = front := hitems.source_eq
      rw [List.nil_append] at hbody
      rw [← hbody] at hrest
      exact absurd hrest hi.not_isMalformed
    | cons j more =>
      obtain ⟨hj, hmore, rfl⟩ := hitems.of_cons
      rw [List.append_assoc] at hbody
      obtain ⟨rfl, rfl⟩ := hi.append_inj hj hbody
      refine ⟨_, ⟨rfl, hmore, hrest⟩, ?_⟩
      rw [Utf8.encode_append, List.length_append, Item.width]
      omega
  · rintro ⟨_, @⟨items, front, rest, n, rfl, hitems, hrest⟩, rfl⟩
    have hfault := IsFirstFault.intro (List.append_assoc i.source front rest).symm
      (hitems.cons hi) hrest
    rwa [Utf8.encode_append, List.length_append, Nat.add_assoc] at hfault

/-- A body that is no row of items is refused for the first place where no item stands. -/
theorem readItemsFrom_eq_error_iff {offset : Nat} {done : List Item} :
    readItemsFrom border offset done cs = .error o ↔
      ∃ n, IsFirstFault border cs n ∧ o = offset + n := by
  fun_induction readItemsFrom border offset done cs with
  | case1 offset done => simp [isFirstFault_nil]
  | case2 offset done c cs i after hread ih =>
    obtain ⟨hitem, hsource⟩ := readItem_eq_ok_iff.mp hread
    rw [ih, ← hsource]
    simp only [isFirstFault_append_iff hitem]
    constructor
    · rintro ⟨n, hn, rfl⟩
      exact ⟨_, ⟨n, hn, rfl⟩, Nat.add_assoc ..⟩
    · rintro ⟨_, ⟨n, hn, rfl⟩, rfl⟩
      exact ⟨n, hn, (Nat.add_assoc ..).symm⟩
  | case3 offset done c cs n hread =>
    have hfault := readItem_eq_error_iff.mp hread
    constructor
    · intro h
      cases h
      exact ⟨n, by simpa using IsFirstFault.intro rfl (isItems_nil_iff.mpr rfl) hfault, rfl⟩
    · rintro ⟨_, @⟨items, front, rest, m, hbody, hitems, hrest⟩, rfl⟩
      cases items with
      | nil =>
        obtain rfl : [] = front := hitems.source_eq
        rw [List.nil_append] at hbody
        rw [← hbody, ← readItem_eq_error_iff, hread] at hrest
        cases hrest
        simp
      | cons j more =>
        obtain ⟨hj, -, rfl⟩ := hitems.of_cons
        rw [hbody, List.append_assoc] at hfault
        exact absurd hfault hj.not_isMalformed

theorem readItems_eq_error_iff :
    readItems border cs = .error o ↔ ∃ n, IsFirstFault border cs n ∧ o = 1 + n :=
  readItemsFrom_eq_error_iff

/-- A place where no item stands is at fault for a character. -/
theorem IsMalformed.exists_cut (h : IsMalformed border cs n) :
    ∃ front c back, cs = front ++ c :: back ∧ (Utf8.encode front).length = n := by
  cases h with
  | border | control | ended | digits => exact ⟨[], _, _, rfl, rfl⟩
  | escape he => exact ⟨['\\'], _, _, rfl, by decide⟩

theorem IsFirstFault.exists_cut (h : IsFirstFault border cs o) :
    ∃ front c back, cs = front ++ c :: back ∧ (Utf8.encode front).length = o := by
  obtain @⟨items, front, rest, n, rfl, -, hrest⟩ := h
  obtain ⟨mid, c, back, rfl, rfl⟩ := hrest.exists_cut
  exact ⟨front ++ mid, c, back, by simp, by simp⟩

/-! ### Quoted texts -/

/-- What stands between two equal bytes of a text is a text, and the bytes are characters. -/
theorem bytes_eq_iff : Utf8.bytes s = border :: (Utf8.encode body ++ [border]) ↔
    border < 0x80 ∧ s.toList = Char.ofUInt8 border :: (body ++ [Char.ofUInt8 border]) := by
  have hbytes (hborder : border < 0x80) :
      Utf8.bytes (String.ofList (Char.ofUInt8 border :: (body ++ [Char.ofUInt8 border]))) =
        border :: (Utf8.encode body ++ [border]) := by
    rw [Utf8.bytes_ofList, Utf8.encode_ofUInt8_cons hborder, Utf8.encode_append,
      Utf8.encode_ofUInt8_cons hborder, Utf8.encode_nil]
  constructor
  · intro hs
    have hborder : border < 0x80 := by
      refine Utf8.lt_of_head?_of_getLast? (s := s) ?_ ?_
      · rw [hs, List.head?_cons]
      · rw [hs, ← List.cons_append, List.getLast?_concat]
    refine ⟨hborder, ?_⟩
    rw [Utf8.bytes_injective (hs.trans (hbytes hborder).symm), String.toList_ofList]
  · rintro ⟨hborder, hs⟩
    rw [← String.ofList_toList (s := s), hs, hbytes hborder]

/-- A text has its borders if it stands between them. -/
theorem isBordered_iff :
    IsBordered border s ↔ ∃ body, Utf8.bytes s = border :: (Utf8.encode body ++ [border]) := by
  constructor
  · rintro ⟨htwo, hhead, hlast⟩
    have hborder := Utf8.lt_of_head?_of_getLast? hhead hlast
    obtain ⟨body, hbody⟩ := exists_toList_eq hborder (Nat.not_lt.mpr htwo) hhead hlast
    exact ⟨body, bytes_eq_iff.mpr ⟨hborder, hbody⟩⟩
  · rintro ⟨body, hs⟩
    constructor
    · simp [hs]
    · rw [hs, List.head?_cons]
    · rw [hs, ← List.cons_append, List.getLast?_concat]

/-- A text that lacks a border is refused at its first byte. -/
theorem decode_of_not_isBordered (h : ¬ IsBordered border s) :
    decode border s = .error (.invalidSymbol 0 (Utf8.bytes s)[0]?) := by
  rw [decode, if_pos, List.head?_eq_getElem?]
  by_contra hborders
  simp only [not_or, Decidable.not_not, Nat.not_lt] at hborders
  exact h ⟨hborders.1, hborders.2.1, hborders.2.2⟩

/-- Of a text with its borders the items between them are read. -/
theorem decode_of_bytes_eq (hs : Utf8.bytes s = border :: (Utf8.encode body ++ [border])) :
    decode border s =
      ((readItems border body).map fun items =>
        String.ofList (join (items.map Item.value))).mapError fun offset =>
          .invalidSymbol offset (Utf8.bytes s)[offset]? := by
  obtain ⟨htwo, hhead, hlast⟩ := isBordered_iff.mpr ⟨body, hs⟩
  obtain ⟨-, hbody⟩ := bytes_eq_iff.mp hs
  have hborders : ¬ ((Utf8.bytes s).length < 2 ∨ (Utf8.bytes s).head? ≠ some border ∨
      (Utf8.bytes s).getLast? ≠ some border) := by
    rintro (h | h | h)
    · omega
    · exact h hhead
    · exact h hlast
  rw [decode, if_neg hborders, hbody, List.tail_cons, List.dropLast_concat,
    decodeFrom_eq_readItems]
  cases readItems border body <;> rfl

/-- A fault is at a character of the text, unless the text is empty. -/
theorem IsFault.isBoundary (h : IsFault border s o) :
    IsBoundary s o ∧ ((Utf8.bytes s)[o]? = none ↔ s = "") := by
  cases h with
  | border hborders =>
    refine ⟨⟨"", s, by simp, rfl⟩, ?_⟩
    rw [List.getElem?_eq_none_iff, Nat.le_zero, List.length_eq_zero_iff]
    exact ⟨fun h => Utf8.bytes_injective h, fun h => h ▸ rfl⟩
  | @body body o hs ho =>
    obtain ⟨hborder, hchars⟩ := bytes_eq_iff.mp hs
    obtain ⟨front, c, back, rfl, rfl⟩ := ho.exists_cut
    constructor
    · refine ⟨String.ofList (Char.ofUInt8 border :: front),
        String.ofList (c :: (back ++ [Char.ofUInt8 border])), ?_, ?_⟩
      · rw [← String.ofList_append, ← String.ofList_toList (s := s), hchars]
        simp
      · rw [Utf8.bytes_ofList, Utf8.encode_ofUInt8_cons hborder, List.length_cons, Nat.add_comm]
    · have hlength : (Utf8.bytes s)[1 + (Utf8.encode front).length]? ≠ none := by
        rw [Ne, List.getElem?_eq_none_iff, hs]
        simp
        omega
      refine iff_of_false hlength ?_
      rintro rfl
      exact hlength rfl

/-- Where the borders of a text are, it can be cut. -/
theorem IsBordered.isBoundary (h : IsBordered border s) :
    IsBoundary s 1 ∧ IsBoundary s ((Utf8.bytes s).length - 1) := by
  obtain ⟨body, hs⟩ := isBordered_iff.mp h
  obtain ⟨hborder, hchars⟩ := bytes_eq_iff.mp hs
  constructor
  · refine ⟨String.ofList [Char.ofUInt8 border],
      String.ofList (body ++ [Char.ofUInt8 border]), ?_, ?_⟩
    · rw [← String.ofList_append, ← String.ofList_toList (s := s), hchars]
      rfl
    · rw [Utf8.bytes_ofList, Utf8.encode_ofUInt8_cons hborder]
      rfl
  · refine ⟨String.ofList (Char.ofUInt8 border :: body),
      String.ofList [Char.ofUInt8 border], ?_, ?_⟩
    · rw [← String.ofList_append, ← String.ofList_toList (s := s), hchars]
      rfl
    · rw [Utf8.bytes_ofList, Utf8.encode_ofUInt8_cons hborder, hs]
      simp

/-- **A quoted text is refused for its first fault.**

The border may be any byte.  A text that is refused lacks one of its borders, and the fault
is at its first byte, or else a place between them is at fault with nothing but items in
front of it.  The fault names the byte there, which begins a character of the text, and
names none only of the empty text.  A text that has its borders can be cut at both. -/
theorem decode_eq_error_iff (border : UInt8) (s : String) :
    (∀ fault, decode border s = .error fault ↔
      ∃ o, IsFault border s o ∧ fault = .invalidSymbol o (Utf8.bytes s)[o]?) ∧
    (∀ o byte, decode border s = .error (.invalidSymbol o byte) →
      IsBoundary s o ∧ (byte = none ↔ s = "")) ∧
    (IsBordered border s → IsBoundary s 1 ∧ IsBoundary s ((Utf8.bytes s).length - 1) ∧
      ∃ body, Utf8.bytes s = border :: (Utf8.encode body ++ [border])) := by
  have hfault (fault : Fault) : decode border s = .error fault ↔
      ∃ o, IsFault border s o ∧ fault = .invalidSymbol o (Utf8.bytes s)[o]? := by
    constructor
    · intro h
      by_cases hborders : IsBordered border s
      · obtain ⟨body, hs⟩ := isBordered_iff.mp hborders
        rw [decode_of_bytes_eq hs] at h
        cases hitems : readItems border body with
        | ok items =>
          rw [hitems] at h
          cases h
        | error offset =>
          rw [hitems] at h
          cases h
          obtain ⟨n, hn, rfl⟩ := readItems_eq_error_iff.mp hitems
          exact ⟨1 + n, .body hs hn, rfl⟩
      · rw [decode_of_not_isBordered hborders] at h
        cases h
        exact ⟨0, .border hborders, rfl⟩
    · rintro ⟨o, ho, rfl⟩
      cases ho with
      | border hborders => exact decode_of_not_isBordered hborders
      | body hs ho =>
        rw [decode_of_bytes_eq hs, readItems_eq_error_iff.mpr ⟨_, ho, rfl⟩, Except.map,
          Except.mapError]
  refine ⟨hfault, ?_, ?_⟩
  · intro o byte h
    obtain ⟨o, ho, hbyte⟩ := (hfault _).mp h
    cases hbyte
    exact ho.isBoundary
  · intro h
    exact ⟨h.isBoundary.1, h.isBoundary.2, isBordered_iff.mp h⟩

/-- The border is a letter of an escape, and a pair of surrogates stands in front of a
backslash that escapes nothing; then the border is outside ASCII. -/
theorem decode_eq_error_of_letter :
    IsFault 'u'.toUInt8 "u\\ud83d\\ude00\\éu" 14 ∧ IsBoundary "u\\ud83d\\ude00\\éu" 14 ∧
      IsBoundary "u\\ud83d\\ude00\\éu" ((Utf8.bytes "u\\ud83d\\ude00\\éu").length - 1) ∧
      IsFault 0xC3 "é" 0 := by
  have hletter : decode 'u'.toUInt8 "u\\ud83d\\ude00\\éu" =
      .error (.invalidSymbol 14 (some 0xC3)) := by decide +kernel
  have hbyte : decode 0xC3 "é" = .error (.invalidSymbol 0 (some 0xC3)) := by decide +kernel
  have hborders : IsBordered 'u'.toUInt8 "u\\ud83d\\ude00\\éu" :=
    ⟨by decide +kernel, by decide +kernel, by decide +kernel⟩
  obtain ⟨o, ho, hfault⟩ := ((decode_eq_error_iff _ _).1 _).mp hletter
  obtain ⟨o', ho', hfault'⟩ := ((decode_eq_error_iff _ _).1 _).mp hbyte
  cases hfault
  cases hfault'
  exact ⟨ho, ((decode_eq_error_iff _ _).2.1 _ _ hletter).1,
    ((decode_eq_error_iff _ _).2.2 hborders).2.1, ho'⟩

end PathFormula.Quoted
