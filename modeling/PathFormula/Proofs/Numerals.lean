import Mathlib.Data.FinEnum
import PathFormula.Proofs.Grammar

/-!
# Where a number ends

The states of a number are known by what may still follow in them.  So the bytes that
lead from the start to a state in which numbers are complete are the numbers, the bytes
that lead anywhere at all are what a number can begin with, and a fresh reading, which
goes on as long as there is a state to go on to, takes the longest stretch that a number
can begin with.

## Main definitions

* `Literal.BeginsNumber bs` — a number can begin with the bytes `bs`.
* `Literal.State.Completes s bs` — a number that stands in `s` is complete with `bs`.
* `Literal.StopsNumber bs next` — the number `bs` ends in front of the byte `next`.
* `Byte.EndsNumber strict b` — a number may end in front of the byte `b`.

## Main results

* `isNumber_iff_feeds`, `beginsNumber_iff_feeds` — numbers, and what they can begin
  with, by the states they lead to.
* `readNumberFrom_of_not_feeds` — what becomes of a number where it does not go on.
* `readNumber_eq_ok_iff` — what a fresh reading takes, and in front of what.
-/

namespace PathFormula

/-- A comma, a closing bracket or a closing brace. -/
def Byte.isDelimiter (b : UInt8) : Bool := [',', ']', '}'].any (·.toUInt8 == b)

/-- A number may end in front of the byte: a fresh one in front of any but a control byte,
and a resumed one in front of white space and delimiters only. -/
def Byte.EndsNumber : Bool → UInt8 → Prop
  | false, b => b < 0x20 → isSpace b
  | true, b => isSpace b ∨ isDelimiter b

instance : (strict : Bool) → DecidablePred (Byte.EndsNumber strict)
  | false, b => inferInstanceAs (Decidable (b < 0x20 → Byte.isSpace b))
  | true, b => inferInstanceAs (Decidable (Byte.isSpace b ∨ Byte.isDelimiter b))

/-- Of the control bytes only white space ends a number. -/
theorem Byte.EndsNumber.isSpace_of_lt {strict : Bool} {b : UInt8} (h : EndsNumber strict b)
    (hlt : b < 0x20) : isSpace b := by
  cases strict with
  | false => exact h hlt
  | true =>
    rcases h with hb | hb
    · exact hb
    · simp only [isDelimiter, List.any_cons, List.any_nil, Bool.or_false, Bool.or_eq_true,
        beq_iff_eq] at hb
      rcases hb with rfl | rfl | rfl <;> exact absurd hlt (by decide)

/-- In front of what ends a resumed number a fresh one ends, too. -/
theorem Byte.EndsNumber.of_true {b : UInt8} (h : EndsNumber true b) (strict : Bool) :
    EndsNumber strict b := by
  cases strict with
  | true => exact h
  | false => exact h.isSpace_of_lt

namespace Literal

variable {s t u : State} {b : UInt8} {bs cs : List UInt8}

/-- A number can begin with these bytes. -/
def BeginsNumber (bs : List UInt8) : Prop := ∃ more, IsNumber (bs ++ more)

/-! ### What completes a number -/

/-- Digits, and then a fraction and an exponent, each of which may be missing. -/
def IsWhole (bs : List UInt8) : Prop :=
  ∃ whole fraction exponent, (∀ b ∈ whole, Byte.isDigit b) ∧ IsFraction fraction ∧
    IsExponent exponent ∧ bs = whole ++ (fraction ++ exponent)

/-- Digits, and then an exponent, which may be missing. -/
def IsDecimals (bs : List UInt8) : Prop :=
  ∃ digits exponent, (∀ b ∈ digits, Byte.isDigit b) ∧ IsExponent exponent ∧
    bs = digits ++ exponent

/-- The byte in front is a digit, and the others are as they should be. -/
def BeginsWithDigit (rest : List UInt8 → Prop) (bs : List UInt8) : Prop :=
  ∃ b more, bs = b :: more ∧ Byte.isDigit b ∧ rest more

/-- What makes a number that stands in a state complete. -/
def State.Completes : State → List UInt8 → Prop
  | start, bs => IsNumber bs
  | minus, bs => BeginsWithDigit IsWhole bs
  | zero, bs | integer, bs => IsWhole bs
  | dot, bs => BeginsWithDigit IsDecimals bs
  | fraction, bs => IsDecimals bs
  | exponent, bs => IsExponent ('e'.toUInt8 :: bs)
  | exponentSign, bs => IsDigits bs
  | exponentDigits, bs => ∀ b ∈ bs, Byte.isDigit b
  | _, _ => False

theorem IsWhole.cons (hb : Byte.isDigit b) (h : IsWhole bs) : IsWhole (b :: bs) := by
  obtain ⟨whole, fraction, exponent, hwhole, hfraction, hexponent, rfl⟩ := h
  exact ⟨b :: whole, fraction, exponent, by simpa [hb] using hwhole, hfraction, hexponent, rfl⟩

theorem IsDecimals.cons (hb : Byte.isDigit b) (h : IsDecimals bs) : IsDecimals (b :: bs) := by
  obtain ⟨digits, exponent, hdigits, hexponent, rfl⟩ := h
  exact ⟨b :: digits, exponent, by simpa [hb] using hdigits, hexponent, rfl⟩

theorem isDigits_cons (hb : Byte.isDigit b) (h : ∀ x ∈ bs, Byte.isDigit x) :
    IsDigits (b :: bs) :=
  ⟨List.cons_ne_nil b bs, by simpa [hb] using h⟩

theorem isNumber_of_beginsWithDigit (h : BeginsWithDigit IsWhole bs) :
    IsNumber bs ∧ IsNumber ('-'.toUInt8 :: bs) := by
  obtain ⟨b, more, rfl, hb, whole, fraction, exponent, hwhole, hfraction, hexponent, rfl⟩ := h
  have hdigits : IsDigits (b :: whole) := isDigits_cons hb hwhole
  exact ⟨.unsigned hdigits hfraction hexponent, .signed hdigits hfraction hexponent⟩

/-- Behind a point that digits stand in front of. -/
theorem isWhole_point (h : BeginsWithDigit IsDecimals bs) : IsWhole ('.'.toUInt8 :: bs) := by
  obtain ⟨b, more, rfl, hb, digits, exponent, hdigits, hexponent, rfl⟩ := h
  exact ⟨[], '.'.toUInt8 :: b :: digits, exponent, by simp, .point (isDigits_cons hb hdigits),
    hexponent, rfl⟩

theorem IsExponent.isDecimals (h : IsExponent bs) : IsDecimals bs :=
  ⟨[], bs, by simp, h, rfl⟩

theorem IsExponent.isWhole (h : IsExponent bs) : IsWhole bs :=
  ⟨[], [], bs, by simp, .nil, h, rfl⟩

/-- Either letter begins an exponent. -/
theorem IsExponent.of_letter {e : UInt8} (he : e = 'e'.toUInt8 ∨ e = 'E'.toUInt8)
    (h : IsExponent ('e'.toUInt8 :: bs)) : IsExponent (e :: bs) := by
  cases h with
  | unsigned _ hds => exact .unsigned he hds
  | signed _ hsign hds => exact .signed he hsign hds

/-- The bytes of the classes that numbers are made of. -/
def ByteClass.describes : ByteClass → UInt8 → Bool
  | zero, b | digit, b => Byte.isDigit b
  | plus, b => Byte.isSign b
  | minus, b => b == '-'.toUInt8
  | point, b => b == '.'.toUInt8
  | lowerE, b => b == 'e'.toUInt8
  | upperE, b => b == 'E'.toUInt8
  | _, _ => true

theorem ByteClass.describes_of_ofByte? {c : ByteClass} (h : ofByte? .numeric b = some c) :
    c.describes b := by
  unfold ofByte? at h
  split at h
  case h_39 =>
    split_ifs at h <;> cases h <;> rfl
  all_goals next hb =>
    cases h
    rw [Byte.eq_of_ofUInt8 hb]
    rfl

/-- A byte that leads on to a state stands in front of what completes it. -/
theorem State.Completes.cons {c : ByteClass} (hb : ByteClass.ofByte? .numeric b = some c)
    (hmove : s.move c = .next t) (ht : t.isNumeric) (h : t.Completes bs) :
    s.Completes (b :: bs) := by
  have hbyte := ByteClass.describes_of_ofByte? hb
  cases s with
  | start =>
    cases c with
    | minus =>
      cases hmove
      rw [eq_of_beq hbyte]
      exact (isNumber_of_beginsWithDigit h).2
    | zero =>
      cases hmove
      exact (isNumber_of_beginsWithDigit ⟨b, bs, rfl, hbyte, h⟩).1
    | digit =>
      cases hmove
      exact (isNumber_of_beginsWithDigit ⟨b, bs, rfl, hbyte, h⟩).1
    | quote => cases hmove; cases ht
    | _ => cases hmove
  | minus =>
    cases c with
    | zero => cases hmove; exact ⟨b, bs, rfl, hbyte, h⟩
    | digit => cases hmove; exact ⟨b, bs, rfl, hbyte, h⟩
    | _ => cases hmove
  | zero | integer =>
    cases c with
    | zero => cases hmove; exact IsWhole.cons hbyte h
    | digit => cases hmove; exact IsWhole.cons hbyte h
    | point => cases hmove; rw [eq_of_beq hbyte]; exact isWhole_point h
    | lowerE => cases hmove; exact (IsExponent.of_letter (.inl (eq_of_beq hbyte)) h).isWhole
    | upperE => cases hmove; exact (IsExponent.of_letter (.inr (eq_of_beq hbyte)) h).isWhole
    | _ => cases hmove
  | dot =>
    cases c with
    | zero => cases hmove; exact ⟨b, bs, rfl, hbyte, h⟩
    | digit => cases hmove; exact ⟨b, bs, rfl, hbyte, h⟩
    | _ => cases hmove
  | fraction =>
    cases c with
    | zero => cases hmove; exact IsDecimals.cons hbyte h
    | digit => cases hmove; exact IsDecimals.cons hbyte h
    | lowerE => cases hmove; exact (IsExponent.of_letter (.inl (eq_of_beq hbyte)) h).isDecimals
    | upperE => cases hmove; exact (IsExponent.of_letter (.inr (eq_of_beq hbyte)) h).isDecimals
    | _ => cases hmove
  | exponent =>
    cases c with
    | zero => cases hmove; exact .unsigned (.inl rfl) (isDigits_cons hbyte h)
    | digit => cases hmove; exact .unsigned (.inl rfl) (isDigits_cons hbyte h)
    | plus => cases hmove; exact .signed (.inl rfl) hbyte h
    | minus => cases hmove; exact .signed (.inl rfl) (by rw [eq_of_beq hbyte]; rfl) h
    | _ => cases hmove
  | exponentSign =>
    cases c with
    | zero => cases hmove; exact isDigits_cons hbyte h
    | digit => cases hmove; exact isDigits_cons hbyte h
    | _ => cases hmove
  | exponentDigits =>
    cases c with
    | zero => cases hmove; exact (isDigits_cons hbyte h).2
    | digit => cases hmove; exact (isDigits_cons hbyte h).2
    | _ => cases hmove
  | string => cases c <;> cases hmove <;> cases ht
  | escape => cases c <;> cases hmove <;> cases ht
  | unicode1 | unicode2 | unicode3 | unicode4 => cases c <;> cases hmove <;> cases ht

/-- Nothing needs to follow where a number is complete. -/
theorem State.completes_nil (hs : s.endsNumber) : s.Completes [] := by
  cases s with
  | zero | integer => exact IsExponent.nil.isWhole
  | fraction => exact IsExponent.nil.isDecimals
  | exponentDigits => exact List.forall_mem_nil _
  | _ => cases hs

/-- Bytes that lead to where a number is complete make it complete. -/
theorem Feeds.completes (h : Feeds s bs t) (ht : t.endsNumber) : s.Completes bs := by
  induction h with
  | nil => exact State.completes_nil ht
  | cons hb hmove hnumeric _ ih => exact (ih ht).cons hb hmove hnumeric

/-! ### Numbers by their states -/

/-- The numbers are what leads from the start to where a number is complete. -/
theorem isNumber_iff_feeds : IsNumber bs ↔ ∃ t, t.endsNumber ∧ Feeds .start bs t := by
  constructor
  · exact exists_feeds_of_isNumber
  · rintro ⟨t, ht, h⟩
    exact h.completes ht

theorem Feeds.of_append (h : Feeds s (bs ++ cs) t) : ∃ u, Feeds s bs u ∧ Feeds u cs t := by
  induction bs generalizing s with
  | nil => exact ⟨s, .nil s, h⟩
  | cons b bs ih =>
    cases h with
    | cons hb hmove hnumeric hrest =>
      obtain ⟨u, hfront, hback⟩ := ih hrest
      exact ⟨u, .cons hb hmove hnumeric hfront, hback⟩

/-- There is only one state to lead to. -/
theorem Feeds.unique (h : Feeds s bs t) (h' : Feeds s bs u) : t = u := by
  induction h with
  | nil =>
    cases h'
    rfl
  | cons hb hmove _ _ ih =>
    cases h' with
    | cons hb' hmove' _ hrest =>
      obtain rfl := Option.some.inj (hb.symm.trans hb')
      obtain rfl := Move.next.inj (hmove.symm.trans hmove')
      exact ih hrest

theorem Feeds.isNumeric (h : Feeds s bs t) (hs : s.isNumeric) : t.isNumeric := by
  induction h with
  | nil => exact hs
  | cons _ _ hnumeric _ ih => exact ih hnumeric

theorem State.isNumeric_of_endsNumber (hs : s.endsNumber) : s.isNumeric := by
  cases s <;> first | rfl | cases hs

/-- From every state of a number it can go on to its end. -/
theorem exists_feeds_of_isNumeric (hs : s.isNumeric) :
    ∃ more t, t.endsNumber ∧ Feeds s more t := by
  have zero {t : State} (hmove : s.move .zero = .next t) (ht : t.endsNumber) :
      ∃ more t, t.endsNumber ∧ Feeds s more t :=
    ⟨['0'.toUInt8], t, ht, .cons (c := .zero) rfl hmove (State.isNumeric_of_endsNumber ht) (.nil t)⟩
  cases s with
  | start | minus | dot | exponent | exponentSign => exact zero rfl rfl
  | zero | integer | fraction | exponentDigits => exact ⟨[], _, rfl, .nil _⟩
  | string | escape | unicode1 | unicode2 | unicode3 | unicode4 => cases hs

/-- A number can begin with what leads from the start to any state. -/
theorem beginsNumber_iff_feeds : BeginsNumber bs ↔ ∃ t, Feeds .start bs t := by
  constructor
  · rintro ⟨more, hmore⟩
    obtain ⟨t, -, h⟩ := isNumber_iff_feeds.mp hmore
    obtain ⟨u, hu, -⟩ := h.of_append
    exact ⟨u, hu⟩
  · rintro ⟨t, h⟩
    obtain ⟨more, u, hu, hmore⟩ := exists_feeds_of_isNumeric (h.isNumeric rfl)
    exact ⟨more, isNumber_iff_feeds.mpr ⟨u, hu, h.trans hmore⟩⟩

/-- A number can go on with a byte exactly if its state leads on by it. -/
theorem beginsNumber_append_iff (h : Feeds .start bs t) (b : UInt8) :
    BeginsNumber (bs ++ [b]) ↔ ∃ u, Feeds t [b] u := by
  rw [beginsNumber_iff_feeds]
  constructor
  · rintro ⟨u, hu⟩
    obtain ⟨t', ht', hback⟩ := hu.of_append
    obtain rfl := h.unique ht'
    exact ⟨u, hback⟩
  · rintro ⟨u, hu⟩
    exact ⟨u, h.trans hu⟩

/-- As many bytes as possible belong to a number. -/
theorem exists_feeds_append (s : State) (rest : List UInt8) :
    ∃ front after t, rest = front ++ after ∧ Feeds s front t ∧
      ∀ b ∈ after.head?, ∀ u, ¬ Feeds t [b] u := by
  induction rest generalizing s with
  | nil => exact ⟨[], [], s, rfl, .nil s, by simp⟩
  | cons b rest ih =>
    by_cases hgo : ∃ t, Feeds s [b] t
    · obtain ⟨t, ht⟩ := hgo
      obtain ⟨front, after, u, rfl, hfront, hafter⟩ := ih t
      exact ⟨b :: front, after, u, rfl, ht.trans hfront, hafter⟩
    · refine ⟨[], b :: rest, s, rfl, .nil s, ?_⟩
      intro b' hb' t ht
      cases hb'
      exact hgo ⟨t, ht⟩

/-! ### Reading a number -/

/-- The number `bs` ends in front of the byte `next`, or at the end: no number goes on
with it, and it is no control byte but white space. -/
def StopsNumber (bs : List UInt8) (next : Option UInt8) : Prop :=
  ∀ b ∈ next, ¬ BeginsNumber (bs ++ [b]) ∧ (b < 0x20 → Byte.isSpace b)

theorem isSome_ofByte?_iff :
    (ByteClass.ofByte? .numeric b).isSome ↔ (b < 0x20 → Byte.isSpace b) := by
  by_cases hb : b < 0x20
  · revert b
    decide +kernel
  · -- every other byte has a class
    refine iff_of_true ?_ fun h => absurd h hb
    unfold ByteClass.ofByte?
    split <;> simp [hb, apply_ite]

/-- The classes of the bytes that end a number where it is complete. -/
def ByteClass.endsNumber : ByteClass → Bool
  | space | white | delimiter => true
  | _ => false

theorem any_endsNumber_ofByte? : ∀ b : UInt8,
    (ByteClass.ofByte? .numeric b).any ByteClass.endsNumber =
      (Byte.isSpace b || Byte.isDelimiter b) := by
  decide +kernel

theorem ByteClass.endsNumber_iff {c : ByteClass} (hb : ofByte? .numeric b = some c) :
    c.endsNumber ↔ Byte.EndsNumber true b := by
  have hclass := any_endsNumber_ofByte? b
  rw [hb, Option.any_some] at hclass
  rw [hclass, Bool.or_eq_true]
  rfl

theorem State.move_eq_done_iff {c : ByteClass} (hs : s.isNumeric) :
    s.move c = .done ↔ s.endsNumber ∧ c.endsNumber := by
  cases s with
  | string | escape | unicode1 | unicode2 | unicode3 | unicode4 => cases hs
  | _ =>
    revert c
    decide

theorem ofByte?_of_isSpace (hb : Byte.isSpace b) :
    ByteClass.ofByte? .numeric b = some .space ∨ ByteClass.ofByte? .numeric b = some .white := by
  rcases Byte.eq_of_isSpace hb with rfl | rfl | rfl | rfl
  · exact .inl rfl
  · exact .inr rfl
  · exact .inr rfl
  · exact .inr rfl

/-- Neither space nor a byte that no literal asks for leads from a state of a number to
another. -/
theorem State.isNumeric_eq_false_of_move {c : ByteClass}
    (hc : c = .space ∨ c = .white ∨ c = .other) (h : s.move c = .next t) :
    t.isNumeric = false := by
  -- only inside a string do these lead on
  rcases hc with rfl | rfl | rfl <;> cases s <;> cases h <;> rfl

theorem not_beginsNumber_append (bs : List UInt8) {c : ByteClass}
    (hb : ByteClass.ofByte? .numeric b = some c) (hc : c = .space ∨ c = .white ∨ c = .other) :
    ¬ BeginsNumber (bs ++ [b]) := by
  intro hbegins
  obtain ⟨t, ht⟩ := beginsNumber_iff_feeds.mp hbegins
  obtain ⟨u, -, hback⟩ := ht.of_append
  cases hback with
  | cons hclass hmove hnumeric _ =>
    rw [hb] at hclass
    cases hclass
    rw [State.isNumeric_eq_false_of_move hc hmove] at hnumeric
    cases hnumeric

/-- No number goes on with space. -/
theorem stopsNumber_of_endsWord (bs : List UInt8) {rest : List UInt8} (hrest : EndsWord rest) :
    StopsNumber bs rest.head? := by
  intro b hb
  refine ⟨?_, fun _ => hrest b hb⟩
  rcases ofByte?_of_isSpace (hrest b hb) with hspace | hwhite
  · exact not_beginsNumber_append bs hspace (.inl rfl)
  · exact not_beginsNumber_append bs hwhite (.inr (.inl rfl))

/-- No number goes on with a closing parenthesis. -/
theorem stopsNumber_closeParen (bs : List UInt8) : StopsNumber bs (some ')'.toUInt8) := by
  intro b hb
  cases hb
  exact ⟨not_beginsNumber_append bs (c := .other) rfl (.inr (.inr rfl)), by decide⟩

end Literal

namespace Cursor

open Literal

variable {s t : State} {passed rest after : List UInt8}

/-- A number that meets a byte which neither goes on with it nor ends it is refused, unless
the reading is fresh and the number complete. -/
theorem stopNumber_eq {c : ByteClass} {b : UInt8} (strict : Bool) (ht : t.isNumeric)
    (hb : ByteClass.ofByte? .numeric b = some c) (hmove : t.move c ≠ .done) :
    stopNumber strict ⟨passed, b :: after⟩ t =
      if t.endsNumber ∧ Byte.EndsNumber strict b then .ok t ⟨passed, b :: after⟩
      else .error (symbolFault ⟨passed, b :: after⟩) ⟨passed, b :: after⟩ := by
  cases strict with
  | false =>
    have hends : Byte.EndsNumber false b := isSome_ofByte?_iff.mp (by rw [hb]; rfl)
    simp [stopNumber, endNumber, hends]
  | true =>
    rw [if_neg, stopNumber, if_pos rfl]
    rintro ⟨hend, hfollow⟩
    have hclass := (ByteClass.endsNumber_iff hb).mpr hfollow
    exact hmove ((State.move_eq_done_iff ht).mpr ⟨hend, hclass⟩)

/-- Where a number does not go on, a reading succeeds if the number is complete and may end
in front of the next byte. -/
theorem readNumberFrom_of_not_feeds (strict : Bool) (ht : t.isNumeric)
    (hstop : ∀ b ∈ after.head?, ∀ u, ¬ Feeds t [b] u) :
    readNumberFrom strict t passed after =
      if t.endsNumber ∧ ∀ b ∈ after.head?, Byte.EndsNumber strict b then
        .ok t ⟨passed, after⟩
      else .error (symbolFault ⟨passed, after⟩) ⟨passed, after⟩ := by
  cases after with
  | nil => simp [readNumberFrom, endNumber]
  | cons b after =>
    simp only [List.head?_cons, Option.mem_some_iff, forall_eq']
    rw [readNumberFrom]
    cases hb : ByteClass.ofByte? .numeric b with
    | none =>
      rw [if_neg]
      rintro ⟨-, hfollow⟩
      have hsome := isSome_ofByte?_iff.mpr hfollow.isSpace_of_lt
      simp [hb] at hsome
    | some c =>
      cases hmove : t.move c with
      | done =>
        obtain ⟨hend, hclass⟩ := (State.move_eq_done_iff ht).mp hmove
        have hends := (ByteClass.endsNumber_iff hb).mp hclass
        simp [hmove, hend, hends.of_true strict]
      | invalid => simpa [hmove] using stopNumber_eq strict ht hb (by simp [hmove])
      | next u =>
        have hu : u.isNumeric = false := by
          by_contra hu
          exact hstop b rfl u (.cons hb hmove (by simpa using hu) (.nil u))
        simpa [hmove, hu] using stopNumber_eq strict ht hb (by simp [hmove])

/-- A fresh reading takes a number up to where no number goes on, and nothing else. -/
theorem readNumber_eq_ok_iff {bytes : List UInt8} {c : Cursor} :
    (∃ t, (ofBytes bytes).readNumber none = .ok t c) ↔
      IsNumber c.passed.reverse ∧ StopsNumber c.passed.reverse c.rest.head? ∧
        c.passed.reverse ++ c.rest = bytes := by
  have hread (bytes : List UInt8) :
      (ofBytes bytes).readNumber none = readNumberFrom false .start [] bytes := rfl
  constructor
  · rintro ⟨t, h⟩
    obtain ⟨front, after, u, rfl, hfront, hafter⟩ := exists_feeds_append .start bytes
    rw [hread, readNumberFrom_of_feeds hfront,
      readNumberFrom_of_not_feeds false (hfront.isNumeric rfl) hafter] at h
    split_ifs at h with hend
    obtain ⟨rfl, rfl⟩ := EStateM.Result.ok.inj h
    rw [List.append_nil, List.reverse_reverse]
    refine ⟨isNumber_iff_feeds.mpr ⟨u, hend.1, hfront⟩, fun b hb => ⟨?_, hend.2 b hb⟩, rfl⟩
    rw [beginsNumber_append_iff hfront]
    rintro ⟨w, hw⟩
    exact hafter b hb w hw
  · rintro ⟨hnumber, hstop, rfl⟩
    obtain ⟨t, ht, hfeeds⟩ := isNumber_iff_feeds.mp hnumber
    have hafter : ∀ b ∈ c.rest.head?, ∀ u, ¬ Feeds t [b] u := fun b hb u hu =>
      (hstop b hb).1 ((beginsNumber_append_iff hfeeds b).mpr ⟨u, hu⟩)
    refine ⟨t, ?_⟩
    rw [hread, readNumberFrom_of_feeds hfeeds,
      readNumberFrom_of_not_feeds false (hfeeds.isNumeric rfl) hafter,
      if_pos ⟨ht, fun b hb => (hstop b hb).2⟩]
    simp

end Cursor

end PathFormula
