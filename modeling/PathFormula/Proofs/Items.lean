import PathFormula.Text.Items

/-!
# The items of a quoted text

What may stand between two equal borders, said without the reader: a text in quotes
is a row of items, and it is read as the items that it is a row of.

## Main definitions

* `Quoted.IsItem border i` — `i` may stand between two borders.
* `Quoted.IsItems border items cs` — the characters are a row of such items.

## Main results

* `readItem_eq_ok_iff`, `readItems_eq_ok_iff` — one item is read, or a row of them,
  where one stands.
-/

namespace PathFormula.Quoted

/-- An item that may stand between two borders. -/
inductive IsItem (border : UInt8) : Item → Prop
  /-- A character by itself. -/
  | plain {c : Char} (hborder : c.toNat ≠ border.toNat) (hbackslash : c ≠ '\\')
    (hcontrol : ¬ c < ' ') : IsItem border ⟨[c], .char c⟩
  /-- A backslash with a letter. -/
  | escape {e c : Char} (he : escaped? e = some c) : IsItem border ⟨['\\', e], .char c⟩
  /-- Four hexadecimal digits after `\u`. -/
  | unicode {w x y z : Char} {u : Nat} (hu : Hex.four? w x y z = some u) :
    IsItem border ⟨['\\', 'u', w, x, y, z], .unit u⟩

/-- The characters are a row of items that may stand between two borders. -/
structure IsItems (border : UInt8) (items : List Item) (cs : List Char) : Prop where
  isItem : ∀ i ∈ items, IsItem border i
  source_eq : items.flatMap Item.source = cs

variable {border : UInt8} {c : Char} {cs rest : List Char} {i : Item} {items : List Item}

/-! ### One item -/

theorem IsItem.source_ne_nil (h : IsItem border i) : i.source ≠ [] := by
  cases h <;> exact List.cons_ne_nil _ _

/-- Four digits are read where they stand. -/
theorem readUnicode_eq_some_iff : readUnicode cs = some (i, rest) ↔
    ∃ w x y z u, Hex.four? w x y z = some u ∧ cs = w :: x :: y :: z :: rest ∧
      i = ⟨['\\', 'u', w, x, y, z], .unit u⟩ := by
  constructor
  · intro h
    unfold readUnicode at h
    split at h
    next w x y z rest' =>
      split at h
      next u hu =>
        cases h
        exact ⟨w, x, y, z, u, hu, rfl, rfl⟩
      next => cases h
    next => cases h
  · rintro ⟨w, x, y, z, u, hu, rfl, rfl⟩
    simp [readUnicode, hu]

/-- Behind a backslash, an item is read where one stands. -/
theorem readEscape_eq_ok_iff (border : UInt8) :
    readEscape cs = .ok (i, rest) ↔ IsItem border i ∧ i.source ++ rest = '\\' :: cs := by
  constructor
  · intro h
    unfold readEscape at h
    split at h
    next => cases h
    next cs =>
      split at h
      next answer hanswer =>
        cases h
        obtain ⟨w, x, y, z, u, hu, rfl, rfl⟩ := readUnicode_eq_some_iff.mp hanswer
        exact ⟨.unicode hu, rfl⟩
      next => cases h
    next e cs _ =>
      split at h
      next c hc =>
        cases h
        exact ⟨.escape hc, rfl⟩
      next => cases h
  · rintro ⟨hitem, hcs⟩
    cases hitem with
    | plain hborder hbackslash hcontrol => exact absurd (List.cons.inj hcs).1 hbackslash
    | @escape e c he =>
      obtain rfl : cs = e :: rest := (List.cons.inj hcs).2.symm
      unfold readEscape
      split
      next h => cases h
      next h =>
        obtain ⟨rfl, -⟩ := List.cons.inj h
        cases he
      next e' cs' _ h =>
        obtain ⟨rfl, rfl⟩ := List.cons.inj h
        rw [he]
    | @unicode w x y z u hu =>
      obtain rfl : cs = 'u' :: w :: x :: y :: z :: rest := (List.cons.inj hcs).2.symm
      have hread : readUnicode (w :: x :: y :: z :: rest) = some (_, rest) :=
        readUnicode_eq_some_iff.mpr ⟨w, x, y, z, u, hu, rfl, rfl⟩
      rw [readEscape, hread]

/-- An item is read where one stands. -/
theorem readItem_eq_ok_iff : readItem border c cs = .ok (i, rest) ↔
    IsItem border i ∧ i.source ++ rest = c :: cs := by
  unfold readItem
  by_cases hbackslash : c = '\\'
  · rw [if_pos hbackslash, readEscape_eq_ok_iff border, hbackslash]
  rw [if_neg hbackslash]
  constructor
  · intro h
    split at h
    next => cases h
    next hc =>
      cases h
      rw [not_or] at hc
      exact ⟨.plain hc.1 hbackslash hc.2, rfl⟩
  · rintro ⟨hitem, hcs⟩
    cases hitem with
    | plain hborder _ hcontrol =>
      obtain ⟨rfl, rfl⟩ := List.cons.inj hcs
      rw [if_neg (not_or.mpr ⟨hborder, hcontrol⟩)]
      rfl
    | escape | unicode => exact absurd (List.cons.inj hcs).1.symm hbackslash

/-! ### A row of items -/

@[simp] theorem isItems_nil_iff : IsItems border items [] ↔ items = [] := by
  constructor
  · rintro ⟨hitem, hsource⟩
    rw [List.flatMap_eq_nil_iff] at hsource
    exact List.eq_nil_iff_forall_not_mem.mpr fun i hi => (hitem i hi).source_ne_nil (hsource i hi)
  · rintro rfl
    exact ⟨by simp, rfl⟩

theorem IsItems.cons (hi : IsItem border i) (h : IsItems border items cs) :
    IsItems border (i :: items) (i.source ++ cs) where
  isItem := by simpa [hi] using h.isItem
  source_eq := by rw [List.flatMap_cons, h.source_eq]

/-- A row of items is its first item and the row of the others. -/
theorem IsItems.of_cons (h : IsItems border (i :: items) cs) :
    IsItem border i ∧ IsItems border items (items.flatMap Item.source) ∧
      i.source ++ items.flatMap Item.source = cs :=
  ⟨h.isItem i List.mem_cons_self, ⟨fun j hj => h.isItem j (List.mem_cons_of_mem i hj), rfl⟩,
    h.source_eq⟩

/-- A row that is not empty begins with an item. -/
theorem IsItems.exists_cons (h : IsItems border items (c :: cs)) :
    ∃ i more rest, items = i :: more ∧ IsItem border i ∧ i.source ++ rest = c :: cs ∧
      IsItems border more rest := by
  cases items with
  | nil => cases h.source_eq
  | cons i more =>
    obtain ⟨hi, hmore, hsource⟩ := h.of_cons
    exact ⟨i, more, _, rfl, hi, hsource, hmore⟩

/-- A body is read as the row of items that it is. -/
theorem readItemsFrom_eq_ok_iff {offset : Nat} {done : List Item} :
    readItemsFrom border offset done cs = .ok items ↔
      ∃ more, items = done.reverse ++ more ∧ IsItems border more cs := by
  fun_induction readItemsFrom border offset done cs with
  | case1 offset done => simp [eq_comm]
  | case2 offset done c cs i after hread ih =>
    obtain ⟨hitem, hsource⟩ := readItem_eq_ok_iff.mp hread
    rw [ih]
    constructor
    · rintro ⟨more, rfl, hmore⟩
      exact ⟨i :: more, by simp, hsource ▸ hmore.cons hitem⟩
    · rintro ⟨more, rfl, hmore⟩
      obtain ⟨j, more, rest, rfl, hj, hrest, hmore⟩ := hmore.exists_cons
      -- the item in front of the row is the one that was read
      rw [readItem_eq_ok_iff.mpr ⟨hj, hrest⟩] at hread
      cases hread
      exact ⟨more, by simp, hmore⟩
  | case3 offset done c cs n hread =>
    constructor
    · intro h
      cases h
    · rintro ⟨more, -, hmore⟩
      obtain ⟨j, more, rest, rfl, hj, hrest, -⟩ := hmore.exists_cons
      rw [readItem_eq_ok_iff.mpr ⟨hj, hrest⟩] at hread
      cases hread

theorem readItems_eq_ok_iff : readItems border cs = .ok items ↔ IsItems border items cs := by
  simp [readItems, readItemsFrom_eq_ok_iff]

end PathFormula.Quoted
