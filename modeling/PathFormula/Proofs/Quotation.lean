import PathFormula.Proofs.Escapes
import PathFormula.Proofs.Grammar

/-!
# Where a string ends

What is read of a string depends on two notions of an escaped byte.  Forwards, the
states of the string tell a byte behind a backslash from any other; backwards, the
backslashes that end just before a byte are counted.  In a string they agree, so
the delimiter that closes a string is the first one that is not escaped, and only
a string that is closed can be at fault for a byte in it.

## Main definitions

* `Literal.BeginsBody d bs` — a body can begin with the bytes `bs`.
* `Cursor.ReadsString` — how a string can be read, from behind its opening
  delimiter on.

## Main results

* `isBody_iff_stringAfter`, `beginsBody_iff_stringAfter` — the bodies are what
  leads back into the string, and their beginnings are what belongs to it.
* `isEscapedAfter_of_stringAfter` — the two notions of an escaped byte agree.
* `readsString_readStringFrom` — a string is read as `ReadsString` allows.
* `readString_of_current` — **what becomes of a string, by its first unescaped
  delimiter.**
-/

namespace PathFormula

open Literal

/-- A body can begin with these bytes. -/
def Literal.BeginsBody (delimiter : UInt8) (bs : List UInt8) : Prop :=
  ∃ more, IsBody delimiter (bs ++ more)

theorem Literal.BeginsBody.of_append {d : UInt8} {bs cs : List UInt8}
    (h : BeginsBody d (bs ++ cs)) : BeginsBody d bs := by
  obtain ⟨more, hmore⟩ := h
  rw [List.append_assoc] at hmore
  exact ⟨_, hmore⟩

namespace Cursor

variable {d b : UInt8} {s t : State} {bs cs passed rest : List UInt8}

/-! ### States and bodies -/

theorem stringAfter_append (s : State) (bs cs : List UInt8) :
    stringAfter d s (bs ++ cs) = (stringAfter d s bs).bind (stringAfter d · cs) := by
  induction bs generalizing s with
  | nil => rfl
  | cons b bs ih =>
    rw [List.cons_append, stringAfter, stringAfter]
    cases stringMove d s b with
    | next t => exact ih t
    | done => rfl
    | invalid => rfl

/-- Where a hexadecimal digit is due, the string goes on with one. -/
theorem exists_hex_of_stringAfter (hd : Byte.isQuote d) (hs : s ≠ .string)
    (hmove : ∀ c, s.move c = State.moveInUnicode t c)
    (h : stringAfter d s bs = some .string) :
    ∃ x more, bs = x :: more ∧ Byte.isHexDigit x ∧ stringAfter d t more = some .string := by
  cases bs with
  | nil => exact absurd (Option.some.inj h) hs
  | cons x more =>
    rw [stringAfter, stringMove_unicode hd hmove] at h
    by_cases hx : Byte.isHexDigit x
    · rw [if_pos hx] at h
      exact ⟨x, more, rfl, hx, h⟩
    · simp [hx] at h

/-- Behind a backslash, the string goes on with one of the escapes. -/
theorem exists_escape_of_stringAfter (hd : Byte.isQuote d)
    (h : stringAfter d .escape bs = some .string) :
    ∃ front more, bs = front ++ more ∧ stringAfter d .string more = some .string ∧
      more.length < bs.length ∧
      ∀ {cs}, IsBody d cs → IsBody d (Byte.backslash :: (front ++ cs)) := by
  cases bs with
  | nil => cases h
  | cons e more =>
    rw [stringAfter, stringMove_escape hd] at h
    by_cases he : Byte.IsEscaped d e
    · rw [if_pos he] at h
      exact ⟨[e], more, rfl, h, by simp, fun hcs => .escape he hcs⟩
    · rw [if_neg he] at h
      by_cases hu : e = 'u'.toUInt8
      · rw [if_pos hu] at h
        subst hu
        obtain ⟨w, more, rfl, hw, h⟩ := exists_hex_of_stringAfter hd (by simp) (fun _ => rfl) h
        obtain ⟨x, more, rfl, hx, h⟩ := exists_hex_of_stringAfter hd (by simp) (fun _ => rfl) h
        obtain ⟨y, more, rfl, hy, h⟩ := exists_hex_of_stringAfter hd (by simp) (fun _ => rfl) h
        obtain ⟨z, more, rfl, hz, h⟩ := exists_hex_of_stringAfter hd (by simp) (fun _ => rfl) h
        exact ⟨['u'.toUInt8, w, x, y, z], more, rfl, h, by simp; omega,
          fun hcs => .unicode hw hx hy hz hcs⟩
      · simp [hu] at h

/-- What leads a string back into the string is a body. -/
theorem isBody_of_stringAfter (hd : Byte.isQuote d)
    (h : stringAfter d .string bs = some .string) : IsBody d bs := by
  -- on the number of bytes, since an escape takes several
  induction hn : bs.length using Nat.strong_induction_on generalizing bs with
  | _ n ih =>
    cases bs with
    | nil => exact .nil
    | cons b more =>
      rw [stringAfter, stringMove_string hd] at h
      by_cases hclose : b = d
      · simp [hclose] at h
      by_cases hbackslash : b = Byte.backslash
      · rw [if_neg hclose, if_pos hbackslash] at h
        obtain ⟨front, more, rfl, hmore, hlength, hbody⟩ := exists_escape_of_stringAfter hd h
        rw [hbackslash]
        refine hbody (ih more.length ?_ hmore rfl)
        rw [← hn, List.length_cons]
        exact Nat.lt_succ_of_lt hlength
      by_cases hcontrol : b < 0x20
      · simp [hclose, hbackslash, hcontrol] at h
      · simp only [hclose, hbackslash, hcontrol, if_false] at h
        refine .plain (UInt8.not_lt.mp hcontrol) hclose hbackslash (ih more.length ?_ h rfl)
        rw [← hn, List.length_cons]
        exact Nat.lt_succ_self _

/-- The bodies are what leads a string back into the string. -/
theorem isBody_iff_stringAfter (hd : Byte.isQuote d) :
    IsBody d bs ↔ stringAfter d .string bs = some .string :=
  ⟨stringAfter_of_isBody hd, isBody_of_stringAfter hd⟩

/-! ### Escapes, forwards and backwards -/

/-- The states of strings: in the string, behind a backslash, or where a hexadecimal
digit is due, which leads on to another of them. -/
theorem eq_or_moveInUnicode_of_isNumeric (hs : s.isNumeric = false) :
    s = .string ∨ s = .escape ∨
      ∃ t, t.isNumeric = false ∧ t ≠ .escape ∧ ∀ c, s.move c = State.moveInUnicode t c := by
  cases s with
  | string => exact .inl rfl
  | escape => exact .inr (.inl rfl)
  | unicode1 => exact .inr (.inr ⟨.unicode2, rfl, by decide, fun _ => rfl⟩)
  | unicode2 => exact .inr (.inr ⟨.unicode3, rfl, by decide, fun _ => rfl⟩)
  | unicode3 => exact .inr (.inr ⟨.unicode4, rfl, by decide, fun _ => rfl⟩)
  | unicode4 => exact .inr (.inr ⟨.string, rfl, by decide, fun _ => rfl⟩)
  | start | minus | zero | integer | dot | fraction | exponent | exponentSign | exponentDigits =>
    cases hs

/-- A string stays in the states of strings, and only a backslash that is not escaped
itself leads to the state behind a backslash. -/
theorem isEscapedAfter_of_stringMove (hd : Byte.isQuote d) (hs : s.isNumeric = false)
    (hpassed : isEscapedAfter passed = (s == .escape)) (h : stringMove d s b = .next t) :
    t.isNumeric = false ∧ isEscapedAfter (b :: passed) = (t == .escape) := by
  rw [isEscapedAfter_cons]
  rcases eq_or_moveInUnicode_of_isNumeric hs with rfl | rfl | ⟨t', ht', hescape, hmove⟩
  · rw [stringMove_string hd] at h
    split_ifs at h with hclose hbackslash hcontrol
    · cases h
      exact ⟨rfl, by simp [hbackslash, hpassed]⟩
    · cases h
      exact ⟨rfl, by simp [beq_false_of_ne hbackslash]⟩
  · rw [stringMove_escape hd] at h
    split_ifs at h with hescaped hu
    · cases h
      exact ⟨rfl, by simp [hpassed]⟩
    · cases h
      exact ⟨rfl, by simp [hpassed]⟩
  · rw [stringMove_unicode hd hmove] at h
    split_ifs at h with hb
    cases h
    -- a hexadecimal digit is no backslash
    have hbackslash : b ≠ Byte.backslash := by
      rintro rfl
      exact absurd hb (by decide)
    exact ⟨ht', by simp [beq_false_of_ne hbackslash, beq_false_of_ne hescape]⟩

/-- The state of a string says whether the next byte is escaped. -/
theorem isEscapedAfter_of_stringAfter (hd : Byte.isQuote d) (hs : s.isNumeric = false)
    (hpassed : isEscapedAfter passed = (s == .escape)) (h : stringAfter d s bs = some t) :
    t.isNumeric = false ∧ isEscapedAfter (bs.reverse ++ passed) = (t == .escape) := by
  induction bs generalizing s passed with
  | nil =>
    cases h
    exact ⟨hs, hpassed⟩
  | cons b bs ih =>
    rw [stringAfter] at h
    split at h
    next u hmove =>
      obtain ⟨hu, hescaped⟩ := isEscapedAfter_of_stringMove hd hs hpassed hmove
      rw [List.reverse_cons, List.append_assoc]
      exact ih hu hescaped h
    next => cases h
    next => cases h

/-- A string is never in a state of numbers. -/
theorem isNumeric_eq_false_of_stringAfter (hd : Byte.isQuote d)
    (h : stringAfter d .string bs = some t) : t.isNumeric = false := by
  have hpassed : isEscapedAfter [] = (State.string == .escape) := rfl
  exact (isEscapedAfter_of_stringAfter hd rfl hpassed h).1

/-- From every state of a string it can go on to its end. -/
theorem exists_stringAfter_eq_string (hd : Byte.isQuote d) (ht : t.isNumeric = false) :
    ∃ more, stringAfter d t more = some .string := by
  cases t with
  | string => exact ⟨[], rfl⟩
  | escape => exact ⟨[Byte.backslash], by rcases Byte.eq_of_isQuote hd with rfl | rfl <;> rfl⟩
  | unicode1 =>
    exact ⟨List.replicate 4 '0'.toUInt8, by rcases Byte.eq_of_isQuote hd with rfl | rfl <;> rfl⟩
  | unicode2 =>
    exact ⟨List.replicate 3 '0'.toUInt8, by rcases Byte.eq_of_isQuote hd with rfl | rfl <;> rfl⟩
  | unicode3 =>
    exact ⟨List.replicate 2 '0'.toUInt8, by rcases Byte.eq_of_isQuote hd with rfl | rfl <;> rfl⟩
  | unicode4 =>
    exact ⟨List.replicate 1 '0'.toUInt8, by rcases Byte.eq_of_isQuote hd with rfl | rfl <;> rfl⟩
  | start | minus | zero | integer | dot | fraction | exponent | exponentSign | exponentDigits =>
    cases ht

/-- A body can begin with what belongs to a string, and with nothing else. -/
theorem beginsBody_iff_stringAfter (hd : Byte.isQuote d) :
    BeginsBody d bs ↔ ∃ t, stringAfter d .string bs = some t := by
  constructor
  · rintro ⟨more, hmore⟩
    rw [isBody_iff_stringAfter hd, stringAfter_append] at hmore
    obtain ⟨t, ht, -⟩ := Option.bind_eq_some_iff.mp hmore
    exact ⟨t, ht⟩
  · rintro ⟨t, ht⟩
    have hnumeric := isNumeric_eq_false_of_stringAfter hd ht
    obtain ⟨more, hmore⟩ := exists_stringAfter_eq_string hd hnumeric
    refine ⟨more, (isBody_iff_stringAfter hd).mpr ?_⟩
    rw [stringAfter_append, ht]
    exact hmore

/-- No delimiter at which a body can go on is unescaped. -/
theorem isEscapedAfter_of_beginsBody (hd : Byte.isQuote d) (hpassed : isEscapedAfter passed = false)
    (h : BeginsBody d (bs ++ [d])) : isEscapedAfter (bs.reverse ++ passed) = true := by
  obtain ⟨u, hu⟩ := (beginsBody_iff_stringAfter hd).mp h
  rw [stringAfter_append] at hu
  obtain ⟨t, ht, hmove⟩ := Option.bind_eq_some_iff.mp hu
  obtain ⟨hnumeric, hescaped⟩ := isEscapedAfter_of_stringAfter hd rfl hpassed ht
  rw [hescaped]
  -- of the states of strings, only the one behind a backslash goes on with a delimiter
  rcases eq_or_moveInUnicode_of_isNumeric hnumeric with rfl | rfl | ⟨t', -, -, hunicode⟩
  · simp [stringAfter, stringMove_string hd] at hmove
  · rfl
  · have hhex : Byte.isHexDigit d = false := by
      rcases Byte.eq_of_isQuote hd with rfl | rfl <;> decide
    simp [stringAfter, stringMove_unicode hd hunicode, hhex] at hmove

/-- Behind a body, a byte is not escaped. -/
theorem isEscapedAfter_of_isBody (hd : Byte.isQuote d) (hpassed : isEscapedAfter passed = false)
    (h : IsBody d bs) : isEscapedAfter (bs.reverse ++ passed) = false :=
  (isEscapedAfter_of_stringAfter hd rfl hpassed (stringAfter_of_isBody hd h)).2

/-! ### How a string is read -/

/-- How a string can be read, from behind its opening delimiter on. -/
inductive ReadsString (d : UInt8) (passed : List UInt8) : List UInt8 → Outcome Unit → Prop
  /-- A delimiter stands behind a body and closes the string. -/
  | closed {body after : List UInt8} (hbody : IsBody d body) :
    ReadsString d passed (body ++ d :: after) (.ok () ⟨d :: (body.reverse ++ passed), after⟩)
  /-- A byte stands where no body goes on with it. -/
  | broken {front after : List UInt8} {b : UInt8} (hfront : BeginsBody d front)
    (hb : ¬ BeginsBody d (front ++ [b])) :
    ReadsString d passed (front ++ b :: after)
      (.error (stringFault ⟨front.reverse ++ passed, b :: after⟩ d)
        ⟨front.reverse ++ passed, b :: after⟩)
  /-- All that is left belongs to a string that is not closed. -/
  | unclosed {rest : List UInt8} (hrest : BeginsBody d rest) :
    ReadsString d passed rest
      (.error (endFault ⟨rest.reverse ++ passed, []⟩) ⟨rest.reverse ++ passed, []⟩)

/-- As many bytes as possible belong to a string. -/
theorem exists_stringAfter_append (d : UInt8) (s : State) (rest : List UInt8) :
    ∃ front after t, rest = front ++ after ∧ stringAfter d s front = some t ∧
      ∀ b ∈ after.head?, ∀ u, stringMove d t b ≠ .next u := by
  induction rest generalizing s with
  | nil => exact ⟨[], [], s, rfl, rfl, by simp⟩
  | cons b rest ih =>
    cases hmove : stringMove d s b with
    | next t =>
      obtain ⟨front, after, u, rfl, hfront, hafter⟩ := ih t
      refine ⟨b :: front, after, u, rfl, ?_, hafter⟩
      rw [stringAfter, hmove]
      exact hfront
    | done => exact ⟨[], b :: rest, s, rfl, rfl, by simp [hmove]⟩
    | invalid => exact ⟨[], b :: rest, s, rfl, rfl, by simp [hmove]⟩

/-- Only the delimiter closes a string, and only where nothing more is due. -/
theorem eq_string_of_stringMove_eq_done (hd : Byte.isQuote d) (hs : s.isNumeric = false)
    (h : stringMove d s b = .done) : s = .string ∧ b = d := by
  rcases eq_or_moveInUnicode_of_isNumeric hs with rfl | rfl | ⟨t', -, -, hmove⟩
  · rw [stringMove_string hd] at h
    split_ifs at h with hclose
    exact ⟨rfl, hclose⟩
  · rw [stringMove_escape hd] at h
    split_ifs at h
  · rw [stringMove_unicode hd hmove] at h
    split_ifs at h

/-- A string is read in one of the three ways. -/
theorem readsString_readStringFrom (hd : Byte.isQuote d) (passed rest : List UInt8) :
    ReadsString d passed rest (readStringFrom d .string passed rest) := by
  obtain ⟨front, after, t, rfl, hfront, hafter⟩ := exists_stringAfter_append d .string rest
  have hnumeric := isNumeric_eq_false_of_stringAfter hd hfront
  have hbegins : BeginsBody d front := (beginsBody_iff_stringAfter hd).mpr ⟨t, hfront⟩
  rw [readStringFrom_of_stringAfter hfront]
  cases after with
  | nil =>
    rw [List.append_nil]
    exact .unclosed hbegins
  | cons b after =>
    rw [readStringFrom]
    cases hmove : stringMove d t b with
    | next u => exact absurd hmove (hafter b rfl u)
    | done =>
      obtain ⟨rfl, rfl⟩ := eq_string_of_stringMove_eq_done hd hnumeric hmove
      exact .closed ((isBody_iff_stringAfter hd).mpr hfront)
    | invalid =>
      refine .broken hbegins ?_
      rw [beginsBody_iff_stringAfter hd, stringAfter_append, hfront]
      simp [stringAfter, hmove]

/-- What is read of a string is a body with the delimiter behind it. -/
theorem exists_isBody_of_readStringFrom {c : Cursor} (hd : Byte.isQuote d)
    (h : readStringFrom d .string passed rest = .ok () c) :
    ∃ body, IsBody d body ∧ rest = body ++ d :: c.rest ∧
      c.passed = d :: (body.reverse ++ passed) := by
  have hways := readsString_readStringFrom hd passed rest
  rw [h] at hways
  clear h
  generalize houtcome : EStateM.Result.ok () c = outcome at hways
  cases hways with
  | closed hbody =>
    cases houtcome
    exact ⟨_, hbody, rfl, rfl⟩
  | broken => cases houtcome
  | unclosed => cases houtcome

/-- A string is a body between delimiters. -/
theorem exists_isBody_of_readString {c : Cursor} (hd : Byte.isQuote d)
    (h : (ofBytes (d :: rest)).readString d none = .ok () c) :
    ∃ body, IsBody d body ∧ c.passed.reverse = d :: (body ++ [d]) ∧ rest = body ++ d :: c.rest := by
  rw [ofBytes, readString_cons hd] at h
  obtain ⟨body, hbody, hrest, hpassed⟩ := exists_isBody_of_readStringFrom hd h
  exact ⟨body, hbody, by simp [hpassed], hrest⟩

/-! ### The first unescaped delimiter -/

/-- As far as a body can begin with the bytes, no unescaped delimiter is among them. -/
theorem length_add_le_of_unescapedAt {front : List UInt8} (after : List UInt8) {i : Nat}
    (hd : Byte.isQuote d) (hpassed : isEscapedAfter passed = false) (hfront : BeginsBody d front)
    (h : UnescapedAt [d] (passed.reverse ++ (front ++ after)) i) (hle : passed.length ≤ i) :
    passed.length + front.length ≤ i := by
  obtain ⟨before, x, behind, hcut, rfl, hx, hescaped⟩ := h.exists_append hle
  obtain rfl : x = d := List.mem_singleton.mp hx
  -- a delimiter that stands among the bytes is escaped there
  rcases List.append_eq_append_iff.mp hcut with ⟨more, rfl, -⟩ | ⟨more, rfl, hmore⟩
  · simp
  · cases more with
    | nil => simp
    | cons y more =>
      obtain ⟨rfl, -⟩ := List.cons.inj hmore
      rw [List.append_cons] at hfront
      rw [isEscapedAfter_of_beginsBody hd hpassed hfront.of_append] at hescaped
      cases hescaped

/-- The delimiter behind a body is the first that is not escaped. -/
theorem firstUnescaped_of_isBody {body : List UInt8} (after : List UInt8) (hd : Byte.isQuote d)
    (hpassed : isEscapedAfter passed = false) (hbody : IsBody d body) :
    FirstUnescaped [d] (passed.reverse ++ (body ++ d :: after)) passed.length
      (passed.length + body.length) where
  start_le := Nat.le_add_right _ _
  unescapedAt := by
    rw [unescapedAt_length_add_iff]
    exact ⟨List.mem_singleton_self d, isEscapedAfter_of_isBody hd hpassed hbody⟩
  not_unescapedAt j hj hlt h := by
    have hbegins : BeginsBody d body := ⟨[], by rwa [List.append_nil]⟩
    have hle := length_add_le_of_unescapedAt _ hd hpassed hbegins h hj
    omega

/-- The bytes between two offsets. -/
theorem extract_append {front after : List UInt8} (passed : List UInt8) :
    (passed.reverse ++ (front ++ after)).extract passed.length (passed.length + front.length) =
      front := by
  rw [← List.length_reverse, List.extract_eq_take_drop, List.drop_left, Nat.add_sub_cancel_left,
    List.take_left]

/-! ### What is said of a faulty string -/

variable {outcome : Outcome Unit} {i : Nat}

/-- The fault of an early end is placed behind all bytes. -/
theorem endFault_eq (c : Cursor) : c.endFault = .endOfInput c.input.length := by
  simp [endFault, input, position]

/-- A string that is not closed any more is blamed for its end. -/
theorem stringFault_of_not_unescapedAt {c : Cursor}
    (h : ∀ j, c.position ≤ j → ¬ UnescapedAt [d] c.input j) :
    c.stringFault d = .endOfInput c.input.length := by
  have hend : (c.seek [d]).isAtEnd := by
    rw [seek_of_not_unescapedAt h, ← List.length_reverse,
      moveTo_length [] (by simp)]
    rfl
  rw [stringFault, if_pos hend, endFault_eq]

/-- A string that is closed later on is blamed for the byte. -/
theorem stringFault_of_firstUnescaped {c : Cursor}
    (h : FirstUnescaped [d] c.input c.position i) : c.stringFault d = c.symbolFault := by
  rw [stringFault, isAtEnd_seek_of_firstUnescaped h]
  rfl

/-- Without an unescaped delimiter a string ends too early, whatever it holds. -/
theorem ReadsString.eq_endOfInput (hd : Byte.isQuote d) (hpassed : isEscapedAfter passed = false)
    (h : ReadsString d passed rest outcome)
    (hnone : ∀ i, passed.length ≤ i → ¬ UnescapedAt [d] (passed.reverse ++ rest) i) :
    ∃ c', outcome = .error (.endOfInput (passed.reverse ++ rest).length) c' := by
  cases h with
  | @closed body after hbody =>
    have hfirst := firstUnescaped_of_isBody after hd hpassed hbody
    exact absurd hfirst.unescapedAt (hnone _ hfirst.start_le)
  | @broken front after b hfront hb =>
    have hinput : input ⟨front.reverse ++ passed, b :: after⟩ =
        passed.reverse ++ (front ++ b :: after) := by simp [input]
    refine ⟨⟨front.reverse ++ passed, b :: after⟩, ?_⟩
    rw [stringFault_of_not_unescapedAt, hinput]
    intro j hj
    rw [hinput]
    refine hnone j (Nat.le_trans ?_ hj)
    simp [position]
  | unclosed hrest =>
    refine ⟨⟨rest.reverse ++ passed, []⟩, ?_⟩
    rw [endFault_eq]
    simp [input]

/-- A string with an unescaped delimiter that no body stands in front of is refused at the
first byte that no body goes on with. -/
theorem ReadsString.exists_invalidSymbol (hd : Byte.isQuote d)
    (hpassed : isEscapedAfter passed = false) {between behind : List UInt8}
    (h : ReadsString d passed rest outcome) (hrest : rest = between ++ d :: behind)
    (hi : FirstUnescaped [d] (passed.reverse ++ rest) passed.length
      (passed.length + between.length)) (hbody : ¬ IsBody d between) :
    ∃ front b after, rest = front ++ b :: after ∧ front.length ≤ between.length ∧
      BeginsBody d front ∧ ¬ BeginsBody d (front ++ [b]) ∧
      outcome = .error (.invalidSymbol (passed.length + front.length) (some b))
        ⟨front.reverse ++ passed, b :: after⟩ := by
  cases h with
  | @closed body after hbody' =>
    -- then this body is what stands in front of the delimiter
    have hlength := hi.unique (firstUnescaped_of_isBody _ hd hpassed hbody')
    obtain ⟨rfl, -⟩ := List.append_inj hrest (by omega)
    exact absurd hbody' hbody
  | @broken front after b hfront hb =>
    have hle := length_add_le_of_unescapedAt _ hd hpassed hfront hi.unescapedAt hi.start_le
    have hinput : input ⟨front.reverse ++ passed, b :: after⟩ =
        passed.reverse ++ (front ++ b :: after) := by simp [input]
    have hposition : position ⟨front.reverse ++ passed, b :: after⟩ =
        passed.length + front.length := by simp [position, Nat.add_comm]
    refine ⟨front, b, after, rfl, by omega, hfront, hb, ?_⟩
    rw [stringFault_of_firstUnescaped (i := passed.length + between.length), symbolFault,
      hposition]
    · rfl
    · rw [hinput, hposition]
      exact hi.mono (Nat.le_add_right _ _) hle
  | unclosed hrest' =>
    have hle := length_add_le_of_unescapedAt [] hd hpassed hrest'
      (by simpa using hi.unescapedAt) hi.start_le
    have hlt := hi.unescapedAt.lt_length
    rw [List.length_append, List.length_reverse] at hlt
    omega

/-- A string with a body in front of the delimiter is read, by its offsets. -/
theorem readStringFrom_eq_moveTo {c : Cursor} {body after : List UInt8} (hd : Byte.isQuote d)
    (hbody : IsBody d body) (hc : c.input = passed.reverse ++ (body ++ d :: after)) :
    readStringFrom d .string passed (body ++ d :: after) =
      .ok () (c.moveTo (passed.length + body.length + 1)) := by
  have hlength : passed.length + body.length + 1 = (d :: (body.reverse ++ passed)).length := by
    simp only [List.length_cons, List.length_append, List.length_reverse]
    omega
  rw [readStringFrom_of_isBody hd hbody, hlength, moveTo_length after (by simp [hc])]

/-- A string that is refused is refused at the first byte that no body goes on with, by its
offsets. -/
theorem ReadsString.exists_offset {c : Cursor} (hd : Byte.isQuote d)
    (hpassed : isEscapedAfter passed = false) {between behind : List UInt8}
    (h : ReadsString d passed (between ++ d :: behind) outcome)
    (hc : c.input = passed.reverse ++ (between ++ d :: behind))
    (hi : FirstUnescaped [d] c.input passed.length (passed.length + between.length))
    (hbody : ¬ IsBody d between) :
    ∃ o b, passed.length ≤ o ∧ o ≤ passed.length + between.length ∧ c.input[o]? = some b ∧
      BeginsBody d (c.input.extract passed.length o) ∧
      ¬ BeginsBody d (c.input.extract passed.length (o + 1)) ∧
      outcome = .error (.invalidSymbol o (some b)) (c.moveTo o) := by
  rw [hc] at hi
  obtain ⟨front, b, after, hcut, hle, hfront, hb, houtcome⟩ :=
    h.exists_invalidSymbol hd hpassed rfl hi hbody
  rw [hcut] at hc
  have hlength : passed.length + front.length = (front.reverse ++ passed).length := by
    simp [Nat.add_comm]
  have hsucc : passed.length + front.length + 1 = passed.length + (front ++ [b]).length := by
    simp [Nat.add_assoc]
  refine ⟨passed.length + front.length, b, Nat.le_add_right _ _, by omega, ?_, ?_, ?_, ?_⟩
  · rw [hc, hlength, ← List.length_reverse, ← List.append_assoc]
    simp
  · rwa [hc, extract_append]
  · rwa [hsucc, hc, List.append_cons, extract_append]
  · rw [houtcome, hlength, moveTo_length (b :: after) (by simp [hc])]

/-- **What becomes of a string, by its first unescaped delimiter.**

Let the cursor stand on an opening delimiter.  If the delimiter occurs nowhere behind
it unescaped, the string ends too early, whatever it holds.  If it does, the string is
read and the cursor stands behind the first such delimiter exactly if a body stands
between the two; otherwise the cursor stays on the first byte that no body goes on
with, which lies no further than this delimiter, and this byte is to blame. -/
theorem readString_of_current {c : Cursor} (hd : Byte.isQuote d) (hc : c.current = some d) :
    ((∀ i, c.position < i → ¬ UnescapedAt [d] c.input i) →
      ∃ c', c.readString d none = .error (.endOfInput c.input.length) c') ∧
    ∀ i, FirstUnescaped [d] c.input (c.position + 1) i →
      (IsBody d (c.input.extract (c.position + 1) i) →
        c.readString d none = .ok () (c.moveTo (i + 1))) ∧
      (¬ IsBody d (c.input.extract (c.position + 1) i) →
        ∃ o b, c.position < o ∧ o ≤ i ∧ c.input[o]? = some b ∧
          BeginsBody d (c.input.extract (c.position + 1) o) ∧
          ¬ BeginsBody d (c.input.extract (c.position + 1) (o + 1)) ∧
          c.readString d none = .error (.invalidSymbol o (some b)) (c.moveTo o)) := by
  obtain ⟨passed, rest⟩ := c
  obtain ⟨rest, rfl⟩ : ∃ more, rest = d :: more := by
    cases rest with
    | nil => cases hc
    | cons b more =>
      cases hc
      exact ⟨more, rfl⟩
  -- the opening delimiter itself escapes nothing
  have hpassed : isEscapedAfter (d :: passed) = false := by
    rw [isEscapedAfter_cons]
    rcases Byte.eq_of_isQuote hd with rfl | rfl <;> rfl
  have hways := readsString_readStringFrom hd (d :: passed) rest
  have hinput : input ⟨passed, d :: rest⟩ = (d :: passed).reverse ++ rest := by simp [input]
  have hposition : position ⟨passed, d :: rest⟩ + 1 = (d :: passed).length := rfl
  rw [readString_cons hd]
  constructor
  · intro hnone
    rw [hinput] at hnone ⊢
    exact hways.eq_endOfInput hd hpassed hnone
  · intro i hi
    have hi' := hi
    rw [hinput, hposition] at hi'
    obtain ⟨between, x, behind, rfl, rfl, hx, -⟩ := hi'.unescapedAt.exists_append hi'.start_le
    obtain rfl : x = d := List.mem_singleton.mp hx
    have hbetween : (input ⟨passed, x :: (between ++ x :: behind)⟩).extract
        (x :: passed).length ((x :: passed).length + between.length) = between := by
      rw [hinput, extract_append]
    rw [hposition, hbetween]
    exact ⟨fun hbody => readStringFrom_eq_moveTo hd hbody hinput,
      fun hbody => hways.exists_offset hd hpassed hinput hi hbody⟩

/-- A string with an escaped delimiter and an escape that there is none, behind another
byte: the letter of the escape is to blame. -/
theorem readString_of_unknown_escape :
    let c : Cursor := ⟨['('.toUInt8], "'a\\'\\q')".toList.map Char.toUInt8⟩
    Byte.isQuote Byte.singleQuote ∧ c.current = some Byte.singleQuote ∧
      FirstUnescaped [Byte.singleQuote] c.input (c.position + 1) 7 ∧
      ¬ IsBody Byte.singleQuote (c.input.extract (c.position + 1) 7) ∧
      ∃ o b, c.position < o ∧ o ≤ 7 ∧ c.input[o]? = some b ∧
        BeginsBody Byte.singleQuote (c.input.extract (c.position + 1) o) ∧
        ¬ BeginsBody Byte.singleQuote (c.input.extract (c.position + 1) (o + 1)) ∧
        c.readString Byte.singleQuote none = .error (.invalidSymbol o (some b)) (c.moveTo o) := by
  intro c
  have hc : c.current = some Byte.singleQuote := by decide +kernel
  have hfirst : FirstUnescaped [Byte.singleQuote] c.input (c.position + 1) 7 :=
    ⟨by decide +kernel, by decide +kernel, by
      have hbetween : ∀ j < 7, c.position + 1 ≤ j →
          ¬ UnescapedAt [Byte.singleQuote] c.input j := by decide +kernel
      exact fun j hj hlt => hbetween j hlt hj⟩
  have hbody : ¬ IsBody Byte.singleQuote (c.input.extract (c.position + 1) 7) := by
    rw [isBody_iff_stringAfter rfl]
    decide +kernel
  exact ⟨rfl, hc, hfirst, hbody, ((readString_of_current rfl hc).2 7 hfirst).2 hbody⟩

end Cursor

end PathFormula
