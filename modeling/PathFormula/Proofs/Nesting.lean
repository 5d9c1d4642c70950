import PathFormula.Proofs.Quotation

/-!
# Brackets in a reference

A reference is read with a list of the brackets that are still open, and it is defined
by brackets that stand inside each other.  What has been read so far is no reference yet,
but what is still to come can be said without the reader: it closes the open brackets one
after the other, with items in front of each closing one, and goes on with items.

## Main definitions

* `Closes nest bs` — the bytes `bs` close the brackets `nest` and go on with items.
* `StopsReference next` — a reference ends in front of the byte `next`.

## Main results

* `exists_closes_of_readItemsFrom` — what is read of items closes the open brackets.
* `readItems_eq_ok_iff`, `readReference_eq_ok_iff` — what a reading of items, or from a root
  on, takes, and in front of what.
-/

namespace PathFormula

open Literal

variable {nest : List Bracket} {b d : UInt8} {bs : List UInt8}

/-- The bytes close the brackets in `nest`, innermost first, and then go on outside all
brackets. -/
inductive Closes : List Bracket → List UInt8 → Prop
  | outside {bs : List UInt8} (h : IsItems false bs) : Closes [] bs
  | inside {kind : Bracket} {nest : List Bracket} {inner bs : List UInt8}
    (hinner : IsItems true inner) (h : Closes nest bs) :
    Closes (kind :: nest) (inner ++ kind.closer :: bs)

/-- Behind a reference byte, items go on. -/
theorem IsItems.of_reference {inside : Bool} (h : IsItems inside (b :: bs))
    (hb : Byte.isReference b) : IsItems inside bs := by
  cases h with
  | reference _ hbs => exact hbs
  | key hquote _ _ => rcases Byte.eq_of_isQuote hquote with rfl | rfl <;> cases hb
  | bracket kind _ _ => cases kind <;> cases hb
  | filler hfiller _ => simp [Byte.isFiller, hb] at hfiller

namespace Closes

/-- What may stand in front of items may stand in front of what closes brackets. -/
theorem append (front : List UInt8)
    (hfront : ∀ {bs}, IsItems (!nest.isEmpty) bs → IsItems (!nest.isEmpty) (front ++ bs))
    (h : Closes nest bs) : Closes nest (front ++ bs) := by
  cases h with
  | outside h => exact .outside (hfront h)
  | inside hinner h =>
    rw [← List.append_assoc]
    exact .inside (hfront hinner) h

theorem reference (hb : Byte.isReference b) (h : Closes nest bs) : Closes nest (b :: bs) := by
  refine h.append [b] ?_
  exact fun hbs => .reference hb hbs

theorem filler (hb : Byte.isFiller b) (hnest : nest ≠ []) (h : Closes nest bs) :
    Closes nest (b :: bs) := by
  refine h.append [b] ?_
  cases nest with
  | nil => exact absurd rfl hnest
  | cons kind nest => exact fun hbs => .filler hb hbs

theorem key {body : List UInt8} (hd : Byte.isQuote d) (hbody : IsBody d body)
    (h : Closes nest bs) : Closes nest (d :: (body ++ d :: bs)) := by
  have hkey : Closes nest (d :: (body ++ [d]) ++ bs) := by
    refine h.append _ ?_
    intro bs hbs
    simpa using IsItems.key hd hbody hbs
  simpa using hkey

/-- What closes a bracket may stand behind the byte that opens it. -/
theorem opening {kind : Bracket} (h : Closes (kind :: nest) bs) :
    Closes nest (kind.opener :: bs) := by
  cases h with
  | @inside _ _ inner bs hinner h =>
    have hbracket : Closes nest (kind.opener :: (inner ++ [kind.closer]) ++ bs) := by
      refine h.append _ ?_
      intro bs hbs
      simpa using IsItems.bracket kind hinner hbs
    simpa using hbracket

end Closes

/-! ### Roles of bytes -/

/-- A reference ends in front of the byte `next`, or at the end: it is no reference byte,
no quote and no opening bracket. -/
def StopsReference (next : Option UInt8) : Prop :=
  ∀ b ∈ next, Byte.isReference b = false ∧ Byte.isQuote b = false ∧
    b ≠ '['.toUInt8 ∧ b ≠ '('.toUInt8

theorem Role.beginsItem_eq_false_iff : (ofByte b).beginsItem = false ↔
    Byte.isReference b = false ∧ Byte.isQuote b = false ∧
      b ≠ '['.toUInt8 ∧ b ≠ '('.toUInt8 := by
  have hb := describes_ofByte b
  cases hrole : ofByte b with
  | quote | reference =>
    rw [hrole] at hb
    simp_all [beginsItem, describes]
  | opening kind =>
    rw [hrole] at hb
    obtain rfl := eq_of_beq hb
    cases kind <;> simp [beginsItem, Bracket.opener]
  | closing kind =>
    rw [hrole] at hb
    obtain rfl := eq_of_beq hb
    cases kind <;> exact iff_of_true rfl (by decide)
  | other =>
    rw [hrole] at hb
    simp only [describes, Byte.isFiller, Bool.not_eq_true', Bool.or_eq_false_iff,
      List.any_cons, beq_eq_false_iff_ne] at hb
    exact iff_of_true rfl ⟨hb.1.2, hb.1.1, hb.2.1.symm, hb.2.2.2.1.symm⟩

namespace Cursor

variable {passed rest : List UInt8} {c : Cursor}

/-- Outside all brackets, items end in front of a byte that begins none. -/
theorem readItemsFrom_of_stopsReference (h : StopsReference rest.head?) :
    readItemsFrom [] none passed rest = .ok () ⟨passed, rest⟩ := by
  cases rest with
  | nil => rfl
  | cons b rest =>
    have hb : (Role.ofByte b).beginsItem = false := Role.beginsItem_eq_false_iff.mpr (h b rfl)
    rw [readItemsFrom]
    cases hrole : Role.ofByte b with
    | closing kind => rfl
    | other => rfl
    | quote | opening kind | reference =>
      rw [hrole] at hb
      cases hb

/-- What is read of items closes the open brackets, up to a byte that begins no item. -/
theorem exists_closes_of_readItemsFrom
    (h : readItemsFrom nest none passed rest = .ok () c) :
    ∃ bs, rest = bs ++ c.rest ∧ c.passed = bs.reverse ++ passed ∧ Closes nest bs ∧
      StopsReference c.rest.head? := by
  -- on the number of bytes, since a key takes several
  induction hn : rest.length using Nat.strong_induction_on generalizing nest passed rest with
  | _ n ih =>
  cases rest with
  | nil =>
    rw [readItemsFrom] at h
    split_ifs at h with hend
    cases h
    have hnest : nest = [] := by simpa using hend
    rw [hnest]
    exact ⟨[], rfl, rfl, .outside (.nil false), by simp [StopsReference]⟩
  | cons b rest =>
    subst hn
    have hdescribes := Role.describes_ofByte b
    -- what is read behind the first byte is put behind it
    have further {nest' : List Bracket} (hcloses : ∀ {bs}, Closes nest' bs → Closes nest (b :: bs))
        (h : readItemsFrom nest' none (b :: passed) rest = .ok () c) :
        ∃ bs, b :: rest = bs ++ c.rest ∧ c.passed = bs.reverse ++ passed ∧ Closes nest bs ∧
          StopsReference c.rest.head? := by
      obtain ⟨bs, hrest, hpassed, hbs, hstop⟩ := ih rest.length (Nat.lt_succ_self _) h rfl
      exact ⟨b :: bs, by rw [hrest]; rfl, by simp [hpassed], hcloses hbs, hstop⟩
    have stop (hnest : nest = []) (hrole : (Role.ofByte b).beginsItem = false)
        (h : EStateM.Result.ok () ⟨passed, b :: rest⟩ = (.ok () c : Outcome Unit)) :
        ∃ bs, b :: rest = bs ++ c.rest ∧ c.passed = bs.reverse ++ passed ∧ Closes nest bs ∧
          StopsReference c.rest.head? := by
      cases h
      rw [hnest]
      refine ⟨[], rfl, rfl, .outside (.nil false), ?_⟩
      intro x hx
      cases hx
      exact Role.beginsItem_eq_false_iff.mp hrole
    rw [readItemsFrom] at h
    cases hrole : Role.ofByte b with
    | quote =>
      simp only [hrole] at h hdescribes
      have hd : Byte.isQuote b := hdescribes
      rw [readItemsFrom_key] at h
      cases hread : readStringFrom b .string (b :: passed) rest with
      | ok u after =>
        rw [hread] at h
        obtain ⟨body, hbody, hbytes, hafter⟩ := exists_isBody_of_readStringFrom hd hread
        obtain ⟨bs, hrest, hpassed, hbs, hstop⟩ :=
          ih after.rest.length (by simp [hbytes]; omega) h rfl
        refine ⟨b :: (body ++ b :: bs), ?_, ?_, .key hd hbody hbs, hstop⟩
        · simp [hbytes, hrest]
        · simp [hpassed, hafter]
      | error fault after =>
        rw [hread] at h
        cases h
    | opening kind =>
      simp only [hrole] at h hdescribes
      obtain rfl : b = kind.opener := eq_of_beq hdescribes
      exact further Closes.opening h
    | closing kind =>
      simp only [hrole] at h hdescribes
      cases nest with
      | nil => exact stop rfl (by rw [hrole]; rfl) h
      | cons innermost outer =>
        simp only at h
        split_ifs at h with hkind
        obtain rfl : b = kind.closer := eq_of_beq hdescribes
        subst hkind
        exact further (fun hbs => .inside (.nil true) hbs) h
    | reference =>
      simp only [hrole] at h hdescribes
      exact further (Closes.reference hdescribes) h
    | other =>
      simp only [hrole] at h hdescribes
      split_ifs at h with hnest
      · exact stop (by simpa using hnest) (by rw [hrole]; rfl) h
      · exact further (Closes.filler hdescribes (by simpa using hnest)) h

/-- Outside all brackets, a reading takes items up to a byte that begins none, and nothing
else. -/
theorem readItems_eq_ok_iff {c c' : Cursor} :
    c.readItems = .ok () c' ↔
      ∃ items, c.rest = items ++ c'.rest ∧ c'.passed = items.reverse ++ c.passed ∧
        IsItems false items ∧ StopsReference c'.rest.head? := by
  constructor
  · intro h
    obtain ⟨items, hrest, hpassed, hcloses, hstop⟩ := exists_closes_of_readItemsFrom h
    cases hcloses with
    | outside hitems => exact ⟨items, hrest, hpassed, hitems, hstop⟩
  · rintro ⟨items, hrest, hpassed, hitems, hstop⟩
    rw [readItems, hrest, readItemsFrom_of_isItems hitems (by simp),
      readItemsFrom_of_stopsReference hstop, ← hpassed]

/-- From a root on, a reading takes the items there. -/
theorem readReference_of_root {c : Cursor} (hb : b = '$'.toUInt8 ∨ b = '@'.toUInt8)
    (hc : c.current = some b) : c.readReference = c.readItems := by
  rw [readReference, hc]
  rcases hb with rfl | rfl <;> rfl

/-- A reading from a root on takes a reference up to a byte that begins no item, and
nothing else. -/
theorem readReference_eq_ok_iff (hb : b = '$'.toUInt8 ∨ b = '@'.toUInt8) :
    (ofBytes (b :: rest)).readReference = .ok () c ↔
      IsReference c.passed.reverse ∧ StopsReference c.rest.head? ∧
        c.passed.reverse ++ c.rest = b :: rest := by
  have hroot : Byte.isReference b := by rcases hb with rfl | rfl <;> rfl
  rw [readReference_of_root hb rfl, readItems_eq_ok_iff]
  constructor
  · rintro ⟨items, hrest, hpassed, hitems, hstop⟩
    have hpassed : c.passed.reverse = items := by simpa [ofBytes] using congrArg List.reverse hpassed
    rw [hpassed]
    refine ⟨?_, hstop, hrest.symm⟩
    cases items with
    | nil =>
      -- the root itself begins an item
      have hrest : b :: rest = c.rest := hrest
      rw [← hrest] at hstop
      rw [(hstop b rfl).1] at hroot
      cases hroot
    | cons a items =>
      obtain ⟨rfl, -⟩ := List.cons.inj hrest
      exact .intro hb (hitems.of_reference hroot)
  · rintro ⟨hreference, hstop, hbytes⟩
    refine ⟨c.passed.reverse, hbytes.symm, by simp [ofBytes], ?_, hstop⟩
    generalize c.passed.reverse = bytes at hreference
    cases hreference with
    | intro hb' hbs =>
      refine .reference ?_ hbs
      rcases hb' with rfl | rfl <;> rfl

end Cursor

end PathFormula
