import PathFormula.Proofs.Nesting

/-!
# Where a reference breaks

What has been read of a reference is said without the reader: items, then brackets that
are still open, with items behind each of them.  A reading that fails has come that far and
can go no further, and there are only three ways in which this happens.  A closing bracket
is of another kind than the innermost open one, a quote begins no string, or the bytes end
with a bracket still open.  Up to that place nothing is at fault, so the fault that is
reported is the first from left to right.

## Main definitions

* `Opens nest front` — the bytes `front` are items that leave the brackets `nest` open.
* `Cursor.Passes c bs c'` — the bytes `bs` stand between the cursors `c` and `c'`.
* `Cursor.BreaksReference c fault c'` — a reference from `c` on breaks at `c'`.

## Main results

* `readItemsFrom_of_opens` — what leaves brackets open is passed over.
* `breaksReference_of_readItemsFrom` — how items that cannot be read break.
* `readReference_of_current` — **which references are read, and how the others break.**
-/

namespace PathFormula

open Literal

variable {nest : List Bracket} {kind : Bracket} {front bs cs : List UInt8} {inside : Bool}

/-- The bytes are items that leave the brackets in `nest` open, innermost first. -/
inductive Opens : List Bracket → List UInt8 → Prop
  | outside {bs : List UInt8} (h : IsItems false bs) : Opens [] bs
  | inside {kind : Bracket} {nest : List Bracket} {front inner : List UInt8}
    (h : Opens nest front) (hinner : IsItems true inner) :
    Opens (kind :: nest) (front ++ kind.opener :: inner)

theorem IsItems.append (h : IsItems inside bs) (h' : IsItems inside cs) :
    IsItems inside (bs ++ cs) := by
  induction h with
  | nil => exact h'
  | reference hb _ ih => exact .reference hb (ih h')
  | key hd hbody _ ih => simpa using IsItems.key hd hbody (ih h')
  | bracket kind hinner _ _ ih => simpa using IsItems.bracket kind hinner (ih h')
  | filler hb _ ih => exact .filler hb (ih h')

namespace Opens

/-- Items may be added inside the innermost bracket. -/
theorem append (h : Opens nest front) (hbs : IsItems (!nest.isEmpty) bs) :
    Opens nest (front ++ bs) := by
  cases h with
  | outside h => exact .outside (h.append hbs)
  | inside h hinner =>
    rw [List.append_assoc, List.cons_append]
    exact .inside h (hinner.append hbs)

/-- An opening bracket is open. -/
theorem opening (kind : Bracket) (h : Opens nest front) :
    Opens (kind :: nest) (front ++ [kind.opener]) :=
  .inside h (.nil true)

/-- A closing bracket makes an item of what the innermost one has opened. -/
theorem closing (h : Opens (kind :: nest) front) : Opens nest (front ++ [kind.closer]) := by
  cases h with
  | @inside _ _ front inner h hinner =>
    rw [List.append_assoc, List.cons_append]
    exact h.append (.bracket kind hinner (.nil _))

end Opens

namespace Cursor

variable {passed rest : List UInt8} {c c' : Cursor} {d : UInt8} {fault : Fault}

/-- The cursor `c'` stands behind the bytes `bs` that follow the cursor `c`. -/
structure Passes (c : Cursor) (bs : List UInt8) (c' : Cursor) : Prop where
  passed_eq : c'.passed = bs.reverse ++ c.passed
  rest_eq : c.rest = bs ++ c'.rest

/-- How a reference from the cursor `c` on can break: with which fault, and where the cursor
stops. -/
inductive BreaksReference (c : Cursor) : Fault → Cursor → Prop
  /-- A closing bracket is of another kind than the innermost open one. -/
  | bracket {front : List UInt8} {kind innermost : Bracket} {outer : List Bracket} {c' : Cursor}
    (hpasses : c.Passes front c') (hopens : Opens (innermost :: outer) front)
    (hc : c'.current = some kind.closer) (hkind : kind ≠ innermost) :
    BreaksReference c (.unbalancedParens c'.position) c'
  /-- A quote begins no string. -/
  | key {front : List UInt8} {nest : List Bracket} {d : UInt8} {fault : Fault} {key c' : Cursor}
    (hpasses : c.Passes front key) (hopens : Opens nest front) (hd : Byte.isQuote d)
    (hkey : key.current = some d) (hread : key.readString d none = .error fault c') :
    BreaksReference c fault c'
  /-- The bytes end inside a bracket. -/
  | ended {front : List UInt8} {kind : Bracket} {outer : List Bracket} {c' : Cursor}
    (hpasses : c.Passes front c') (hopens : Opens (kind :: outer) front)
    (hc : c'.current = none) :
    BreaksReference c (.endOfInput c.input.length) c'

theorem passes_append (passed bs rest : List UInt8) :
    Passes ⟨passed, bs ++ rest⟩ bs ⟨bs.reverse ++ passed, rest⟩ where
  passed_eq := rfl
  rest_eq := rfl

theorem Passes.input_eq (h : c.Passes bs c') : c'.input = c.input := by
  rw [input, input, h.passed_eq, h.rest_eq]
  simp

/-- What leaves brackets open is passed over. -/
theorem readItemsFrom_of_opens (h : Opens nest front) (passed rest : List UInt8) :
    readItemsFrom [] none passed (front ++ rest) =
      readItemsFrom nest none (front.reverse ++ passed) rest := by
  induction h generalizing rest with
  | outside h => exact readItemsFrom_of_isItems h (by simp) passed rest
  | @inside kind nest front inner h hinner ih =>
    rw [List.append_assoc, List.cons_append, ih, readItemsFrom, (Role.ofByte_bracket kind).1]
    simp only
    rw [readItemsFrom_of_isItems hinner (by simp)]
    simp

theorem Passes.readItems_eq (h : c.Passes front c') (hopens : Opens nest front) :
    c.readItems = readItemsFrom nest none c'.passed c'.rest := by
  rw [readItems, h.rest_eq, readItemsFrom_of_opens hopens, ← h.passed_eq]

/-- Items that cannot be read break behind what can be. -/
theorem breaksReference_of_readItemsFrom (hopens : Opens nest front)
    (h : readItemsFrom nest none (front.reverse ++ passed) rest = .error fault c') :
    BreaksReference ⟨passed, front ++ rest⟩ fault c' := by
  -- on the number of bytes that are left, since a key takes several
  induction hn : rest.length using Nat.strong_induction_on generalizing nest front rest with
  | _ n ih =>
  subst hn
  have hpasses := passes_append passed front rest
  cases rest with
  | nil =>
    rw [readItemsFrom] at h
    cases nest with
    | nil => cases h
    | cons kind outer =>
      obtain ⟨rfl, rfl⟩ := EStateM.Result.error.inj h
      rw [endFault_eq, hpasses.input_eq]
      exact .ended hpasses hopens rfl
  | cons b rest =>
    have hdescribes := Role.describes_ofByte b
    have further {nest' : List Bracket} (hopens' : Opens nest' (front ++ [b]))
        (h : readItemsFrom nest' none (b :: (front.reverse ++ passed)) rest = .error fault c') :
        BreaksReference ⟨passed, front ++ b :: rest⟩ fault c' := by
      rw [List.append_cons]
      exact ih rest.length (Nat.lt_succ_self _) hopens' (by simpa using h) rfl
    rw [readItemsFrom] at h
    cases hrole : Role.ofByte b with
    | quote =>
      simp only [hrole] at h hdescribes
      have hd : Byte.isQuote b := hdescribes
      rw [readItemsFrom_key] at h
      cases hread : readStringFrom b .string (b :: (front.reverse ++ passed)) rest with
      | ok u after =>
        rw [hread] at h
        obtain ⟨body, hbody, hbytes, hafter⟩ := exists_isBody_of_readStringFrom hd hread
        have hopens' : Opens nest (front ++ b :: (body ++ [b])) :=
          hopens.append (.key hd hbody (.nil _))
        have hkey := ih after.rest.length (by simp [hbytes]; omega) hopens'
          (by simpa [hafter] using h) rfl
        simpa [hbytes] using hkey
      | error fault' after =>
        rw [hread] at h
        obtain ⟨rfl, rfl⟩ := EStateM.Result.error.inj h
        exact .key hpasses hopens hd rfl (by rw [readString_cons hd, hread])
    | opening kind =>
      simp only [hrole] at h hdescribes
      obtain rfl : b = kind.opener := eq_of_beq hdescribes
      exact further (hopens.opening kind) h
    | closing kind =>
      simp only [hrole] at h hdescribes
      obtain rfl : b = kind.closer := eq_of_beq hdescribes
      cases nest with
      | nil => cases h
      | cons innermost outer =>
        simp only at h
        split_ifs at h with hkind
        · subst hkind
          exact further hopens.closing h
        · obtain ⟨rfl, rfl⟩ := EStateM.Result.error.inj h
          exact .bracket hpasses hopens rfl hkind
    | reference =>
      simp only [hrole] at h hdescribes
      exact further (hopens.append (.reference hdescribes (.nil _))) h
    | other =>
      simp only [hrole] at h hdescribes
      cases nest with
      | nil => cases h
      | cons kind outer => exact further (hopens.append (.filler hdescribes (.nil true))) h

/-- Items that break are refused there. -/
theorem readItems_of_breaksReference (h : c.BreaksReference fault c') :
    c.readItems = .error fault c' := by
  cases h with
  | @bracket front kind innermost outer c' hpasses hopens hc hkind =>
    obtain ⟨passed, rest⟩ := c'
    obtain ⟨more, rfl⟩ := List.head?_eq_some_iff.mp hc
    rw [hpasses.readItems_eq hopens, readItemsFrom, (Role.ofByte_bracket kind).2]
    simp [hkind, position]
  | @key front nest d fault key c' hpasses hopens hd hkey hread =>
    obtain ⟨passed, rest⟩ := key
    obtain ⟨more, rfl⟩ := List.head?_eq_some_iff.mp hkey
    rw [readString_cons hd] at hread
    rw [hpasses.readItems_eq hopens, readItemsFrom, Role.ofByte_of_isQuote hd]
    simp only
    rw [readItemsFrom_key, hread]
  | @ended front kind outer c' hpasses hopens hc =>
    obtain ⟨passed, rest⟩ := c'
    obtain rfl : rest = [] := List.head?_eq_none_iff.mp hc
    rw [hpasses.readItems_eq hopens, readItemsFrom, if_neg (by simp), endFault_eq,
      hpasses.input_eq]

/-- **Which references are read, and how the others break.**

Let the cursor stand on a root.  A reference is read exactly up to where items end in front
of a byte that begins none, or at the end.  In every other case the bytes are items, and
brackets left open, up to a closing bracket of another kind than the innermost open one, or
to a quote that begins no string, or to the end, and this is the fault that is reported. -/
theorem readReference_of_current (hc : c.current = some '$'.toUInt8 ∨ c.current = some '@'.toUInt8) :
    (∀ c', c.readReference = .ok () c' ↔
      ∃ items, c.Passes items c' ∧ items ≠ [] ∧ IsItems false items ∧
        StopsReference c'.current) ∧
    ∀ fault c', c.readReference = .error fault c' ↔ c.BreaksReference fault c' := by
  obtain ⟨b, hb, hcurrent⟩ : ∃ b, (b = '$'.toUInt8 ∨ b = '@'.toUInt8) ∧ c.current = some b := by
    rcases hc with hc | hc
    · exact ⟨_, .inl rfl, hc⟩
    · exact ⟨_, .inr rfl, hc⟩
  have hroot : Byte.isReference b := by rcases hb with rfl | rfl <;> rfl
  rw [readReference_of_root hb hcurrent]
  refine ⟨fun c' => ?_, fun fault c' => ?_⟩
  · rw [readItems_eq_ok_iff]
    constructor
    · rintro ⟨items, hrest, hpassed, hitems, hstop⟩
      refine ⟨items, ⟨hpassed, hrest⟩, ?_, hitems, hstop⟩
      rintro rfl
      -- the root itself begins an item
      rw [current, hrest, List.nil_append] at hcurrent
      rw [(hstop b hcurrent).1] at hroot
      cases hroot
    · rintro ⟨items, hpasses, -, hitems, hstop⟩
      exact ⟨items, hpasses.rest_eq, hpasses.passed_eq, hitems, hstop⟩
  · refine ⟨fun h => ?_, readItems_of_breaksReference⟩
    obtain ⟨passed, rest⟩ := c
    exact breaksReference_of_readItemsFrom (.outside (.nil false)) h

/-- Behind a closed key and a closed bracket, a closing bracket of the wrong kind is at
fault, and the one in the key is not. -/
theorem readReference_of_current_mismatch :
    let c : Cursor := ⟨['!'.toUInt8], "@['a)'](b]".toList.map Char.toUInt8⟩
    c.current = some '@'.toUInt8 ∧
      c.readReference = .error (.unbalancedParens 10) (c.moveTo 10) ∧
      c.BreaksReference (.unbalancedParens 10) (c.moveTo 10) := by
  intro c
  have hrefused : c.readReference = .error (.unbalancedParens 10) (c.moveTo 10) := rfl
  exact ⟨rfl, hrefused, ((readReference_of_current (.inr rfl)).2 _ _).mp hrefused⟩

end Cursor

end PathFormula
