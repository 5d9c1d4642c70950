import PathFormula.Proofs.Nesting
import PathFormula.Proofs.Numerals
import PathFormula.Proofs.Reads

/-!
# Lexemes in their surroundings

Whether a lexeme is read where its bytes stand depends on three things: on the bytes, which
must be as those of its kind are; on the fact whether an operand has just ended, and on
that only if the lexeme begins with a sign; and on the one byte that follows, which must
not go on with the lexeme.  Nothing further on has any influence, so a lexeme can be moved
to wherever these three hold.

## Main definitions

* `Lexeme.StandsBefore` — a lexeme is read where it stands in front of some bytes.
* `Lexeme.IsShaped`, `Lexeme.MayFollow`, `Lexeme.EndsBefore` — the three conditions.
* `Lexeme.AllEnd` — no lexeme reaches over to the bytes that follow.

## Main results

* `standsBefore_iff` — a lexeme is read exactly where the three conditions hold.
* `endsBefore_of_endsWord` — every lexeme ends in front of space, unless it is called.
* `allEnd_of_endsWord`, `allEnd_closeParen` — what ends at the end of a text also ends in
  front of space and of a closing parenthesis.
* `Reads.cons_iff` — a reading is its first piece and the reading of the others.
-/

namespace PathFormula

/-! ### Operators -/

namespace Operator

theorem ofBytes?_bytes (op : Operator) : ofBytes? op.bytes = some op := by
  cases op <;> decide

theorem length_bytes_le (op : Operator) : op.bytes.length ≤ 2 := by
  cases op <;> decide

theorem isSpace_eq_false_of_mem (op : Operator) : ∀ b ∈ op.bytes, Byte.isSpace b = false := by
  have h : ∀ op ∈ all, op.bytes.all fun b => !Byte.isSpace b := by decide
  simpa using h op op.mem_all

end Operator

namespace Mark

/-- A mark begins with an operator byte. -/
theorem exists_bytes_eq_cons (m : Mark) :
    ∃ b more, m.bytes = b :: more ∧ Byte.isOperator b := by
  have h : ∀ op ∈ Operator.all, op.bytes.head?.any Byte.isOperator := by decide
  rcases m with op | _
  · have hop := h op op.mem_all
    cases hbytes : op.bytes with
    | nil => simp [hbytes] at hop
    | cons b more => exact ⟨b, more, hbytes, by simpa [hbytes] using hop⟩
  · exact ⟨_, [], rfl, rfl⟩

theorem ofByte_of_bytes {m : Mark} {b : UInt8} (hm : m.bytes = [b]) : ofByte b = m := by
  rcases m with op | _
  · have hbytes : op.bytes = [b] := hm
    rw [ofByte, ← hbytes, Operator.ofBytes?_bytes]
  · obtain rfl : '='.toUInt8 = b := (List.cons.inj hm).1
    decide

/-- A mark is read where the next byte makes no operator of it. -/
theorem read_of_bytes {m : Mark} {b : UInt8} {more rest : List UInt8} (hm : m.bytes = b :: more)
    (hrest : ∀ x ∈ rest.head?, ∀ op : Operator, op.bytes ≠ m.bytes ++ [x]) :
    read b (more ++ rest) = (m, rest) := by
  match more with
  | [] =>
    have hbyte := ofByte_of_bytes hm
    cases rest with
    | nil => rw [List.append_nil, read, hbyte]
    | cons x rest =>
      have hpair : Operator.ofBytes? [b, x] = none := by
        rw [Operator.ofBytes?, List.find?_eq_none]
        intro op _ hop
        refine hrest x rfl op ?_
        rw [hm]
        exact beq_iff_eq.mp hop
      rw [List.nil_append, read, hpair]
      exact congrArg (·, x :: rest) hbyte
  | x :: more =>
    rcases m with op | _
    · have hfind := op.ofBytes?_bytes
      have hlength := op.length_bytes_le
      have hbytes : op.bytes = b :: x :: more := hm
      rw [hbytes] at hfind hlength
      obtain rfl : more = [] := by
        cases more with
        | nil => rfl
        | cons => simp at hlength
      rw [List.singleton_append, read, hfind]
    · cases hm

/-- The byte behind a mark that is read makes no operator of it. -/
theorem bytes_ne_of_read {b : UInt8} (rest : List UInt8) (hb : Byte.isOperator b) :
    ∀ x ∈ (read b rest).2.head?, ∀ op : Operator, op.bytes ≠ (read b rest).1.bytes ++ [x] := by
  intro x hx op hop
  have happend := Lexeme.bytes_read_append rest hb
  unfold read at hop hx happend
  split at hop
  next => cases hx
  next b' more =>
    split at hop
    next op' hop' =>
      -- a mark of two bytes has no room for a third
      have hlength := op.length_bytes_le
      simp only at hop
      rw [hop, bytes, Lexeme.ofBytes?_eq_some hop'] at hlength
      simp at hlength
    next hpair =>
      simp only [hpair] at hx happend hop
      cases hx
      have hbytes : (ofByte b).bytes = [b] :=
        List.append_cancel_right (happend : _ = [b] ++ _)
      rw [hbytes] at hop
      have hfind := op.ofBytes?_bytes
      rw [hop] at hfind
      rw [List.singleton_append, hpair] at hfind
      cases hfind

end Mark

namespace Lexeme

variable {afterOperand : Bool} {b : UInt8} {rest after : List UInt8} {l : Lexeme}

/-- The lexeme is read where it stands in front of `rest`. -/
def StandsBefore (afterOperand : Bool) (l : Lexeme) (rest : List UInt8) : Prop :=
  ∃ b more, l.bytes = b :: more ∧ Byte.isSpace b = false ∧
    IsRead afterOperand b (more ++ rest) l rest

/-- Whether the lexeme is an operator, or the single equals sign. -/
def isMark : Lexeme → Bool
  | operator _ => true
  | _ => false

/-- The bytes of the lexeme are as those of its kind are. -/
def IsShaped : Lexeme → Prop
  | number bs => Literal.IsNumber bs
  | quoted bs => Literal.IsQuoted bs
  | reference bs => IsReference bs
  | word bs _ => ∃ b more, bs = b :: more ∧ Lead.ofByte b = .word ∧ ∀ x ∈ more, Byte.isWord x
  | symbol first more =>
    Lead.ofByte first = .symbol ∧ Byte.isSpace first = false ∧ ∀ x ∈ more, Utf8.isContinuation x
  | operator _ | openParen | closeParen | dot => True

/-- What begins with a sign is an operator behind an operand, and only there. -/
def MayFollow (afterOperand : Bool) (l : Lexeme) : Prop :=
  ∀ b ∈ l.bytes.head?, Byte.isSign b → l.isMark = afterOperand

/-- The lexeme does not go on with the byte `next`, and a word knows whether it is called
by it. -/
def EndsBefore (l : Lexeme) (next : Option UInt8) : Prop :=
  match l with
  | operator m => ∀ b ∈ next, ∀ op : Operator, op.bytes ≠ m.bytes ++ [b]
  | number bs => Literal.StopsNumber bs next
  | reference _ => StopsReference next
  | word _ call => (∀ b ∈ next, Byte.isWord b = false) ∧ call = (next == some '('.toUInt8)
  | symbol _ _ => ∀ b ∈ next, Utf8.isContinuation b = false
  | quoted _ | openParen | closeParen | dot => True

theorem isSign_eq_false_of_lead (hb : Lead.ofByte b ≠ .sign) : Byte.isSign b = false := by
  by_contra hsign
  exact hb ((Lead.ofByte_eq_iff .sign b).mpr (eq_true_of_ne_false hsign))

/-- A lexeme that no sign begins may follow on anything. -/
theorem mayFollow_of_cons {more : List UInt8} (hbytes : l.bytes = b :: more)
    (hb : Byte.isSign b = false) : l.MayFollow afterOperand := by
  intro x hx hsign
  rw [hbytes] at hx
  cases hx
  rw [hb] at hsign
  cases hsign

/-! ### What is read -/

theorem isShaped_of_isRead (h : IsRead afterOperand b rest l after)
    (hspace : Byte.isSpace b = false) : l.IsShaped := by
  cases h with
  | operator | dot | openParen | closeParen => trivial
  | number _ hc => exact (Cursor.readNumber_eq_ok_iff.mp ⟨_, hc⟩).1
  | quoted hb hc =>
    have hd : Byte.isQuote b := (Lead.ofByte_eq_iff .quote b).mp hb
    obtain ⟨body, hbody, hbytes, -⟩ := Cursor.exists_isBody_of_readString hd hc
    rw [IsShaped, hbytes]
    exact .intro hd hbody
  | reference hb hc => exact ((Cursor.readReference_eq_ok_iff (Lead.eq_root hb)).mp hc).1
  | word hb => exact ⟨b, _, rfl, hb, fun _ => List.mem_takeWhile_imp⟩
  | symbol hb => exact ⟨hb, hspace, fun _ => List.mem_takeWhile_imp⟩

theorem mayFollow_of_isRead (h : IsRead afterOperand b rest l after) :
    l.MayFollow afterOperand := by
  obtain ⟨more, hbytes⟩ := bytes_eq_cons_of_isRead h
  intro x hx hsign
  rw [hbytes] at hx
  cases hx
  have hlead : Lead.ofByte b = .sign := (Lead.ofByte_eq_iff .sign b).mpr hsign
  cases h with
  | operator hb =>
    rcases hb with hb | ⟨-, hafter⟩
    · simp [hlead] at hb
    · exact hafter.symm
  | number hb hc =>
    rcases hb with hb | ⟨-, hafter⟩
    · simp [hlead] at hb
    · exact hafter.symm
  | dot hb | quoted hb hc | reference hb hc | openParen hb | closeParen hb | word hb | symbol hb =>
    simp [hlead] at hb

theorem endsBefore_of_isRead (h : IsRead afterOperand b rest l after) :
    l.EndsBefore after.head? := by
  cases h with
  | operator hb => exact Mark.bytes_ne_of_read rest (Lead.isOperator (hb.imp_right And.left))
  | number _ hc => exact (Cursor.readNumber_eq_ok_iff.mp ⟨_, hc⟩).2.1
  | reference hb hc => exact ((Cursor.readReference_eq_ok_iff (Lead.eq_root hb)).mp hc).2.1
  | quoted | dot | openParen | closeParen => trivial
  | word hb =>
    refine ⟨fun x hx => ?_, rfl⟩
    have := List.head?_dropWhile_not Byte.isWord rest
    rw [Option.mem_def.mp hx] at this
    simpa using this
  | symbol hb =>
    intro x hx
    have := List.head?_dropWhile_not Utf8.isContinuation rest
    rw [Option.mem_def.mp hx] at this
    simpa using this

/-! ### What can be read -/

/-- A number begins with a digit or a minus sign. -/
theorem isDigit_or_eq_of_isNumber {bs : List UInt8} (h : Literal.IsNumber (b :: bs)) :
    Byte.isDigit b ∨ b = '-'.toUInt8 := by
  generalize hbytes : b :: bs = bytes at h
  cases h with
  | @unsigned whole fraction exponent hwhole hfraction hexponent =>
    obtain ⟨hne, hdigits⟩ := hwhole
    cases whole with
    | nil => exact absurd rfl hne
    | cons d ds =>
      rw [(List.cons.inj hbytes).1]
      exact .inl (hdigits d List.mem_cons_self)
  | signed hwhole hfraction hexponent => exact .inr (List.cons.inj hbytes).1

theorem lead_of_isNumber {bs : List UInt8} (h : Literal.IsNumber (b :: bs)) :
    Lead.ofByte b = .digit ∨ Lead.ofByte b = .sign := by
  rcases isDigit_or_eq_of_isNumber h with hb | rfl
  · exact .inl ((Lead.ofByte_eq_iff .digit b).mpr hb)
  · exact .inr rfl

theorem ne_nil_of_isNumber {bs : List UInt8} (h : Literal.IsNumber bs) : bs ≠ [] := by
  cases h with
  | unsigned hwhole hfraction hexponent => simp [hwhole.1]
  | signed hwhole hfraction hexponent => simp

/-- No lexeme but a lone character is announced by space. -/
theorem isSpace_eq_false_of_lead (h : Lead.ofByte b ≠ .symbol) : Byte.isSpace b = false := by
  by_contra hb
  rw [Bool.not_eq_false] at hb
  refine h ?_
  rcases Byte.eq_of_isSpace hb with rfl | rfl | rfl | rfl <;> rfl

/-- A lexeme is read where the three conditions hold. -/
theorem standsBefore_of_endsBefore (hshape : l.IsShaped) (hfollow : l.MayFollow afterOperand)
    (hends : l.EndsBefore rest.head?) : l.StandsBefore afterOperand rest := by
  cases l with
  | operator m =>
    obtain ⟨b, more, hbytes, hb⟩ := m.exists_bytes_eq_cons
    have hlead : Lead.ofByte b = .operator ∨ Lead.ofByte b = .sign ∧ afterOperand = true := by
      by_cases hsign : Byte.isSign b
      · refine .inr ⟨(Lead.ofByte_eq_iff .sign b).mpr hsign, ?_⟩
        exact (hfollow b (by rw [bytes, hbytes]; rfl) hsign).symm
      · refine .inl ((Lead.ofByte_eq_iff .operator b).mpr ?_)
        simp [Lead.describes, hb, hsign]
    have hread : IsRead afterOperand b (more ++ rest) _ _ := .operator hlead
    rw [Mark.read_of_bytes hbytes hends] at hread
    refine ⟨b, more, hbytes, isSpace_eq_false_of_lead ?_, hread⟩
    rcases hlead with hlead | ⟨hlead, -⟩ <;> simp [hlead]
  | number bs =>
    cases bs with
    | nil => exact absurd rfl (ne_nil_of_isNumber hshape)
    | cons b more =>
      have hlead := lead_of_isNumber hshape
      obtain ⟨t, ht⟩ := Cursor.readNumber_eq_ok_iff (c := ⟨(b :: more).reverse, rest⟩).mpr
        ⟨by rwa [List.reverse_reverse], by rwa [List.reverse_reverse], rfl⟩
      rw [List.reverse_reverse, List.cons_append] at ht
      refine ⟨b, more, rfl, isSpace_eq_false_of_lead ?_, ?_⟩
      · rcases hlead with hlead | hlead <;> simp [hlead]
      · have hnumber : IsRead afterOperand b (more ++ rest) _ _ := .number
          (hlead.imp_right fun hsign => ⟨hsign,
            (hfollow b rfl ((Lead.ofByte_eq_iff .sign b).mp hsign)).symm⟩) ht
        rwa [List.reverse_reverse] at hnumber
  | quoted bs =>
    cases hshape with
    | @intro d body hd hbody =>
      have hlead := (Lead.ofByte_eq_iff .quote d).mpr hd
      refine ⟨d, body ++ [d], rfl, isSpace_eq_false_of_lead (by simp [hlead]), ?_⟩
      have hread := Cursor.readString_of_isBody hd hbody rest
      have hquoted : IsRead afterOperand d (body ++ d :: rest) _ _ := .quoted hlead hread
      simpa using hquoted
  | reference bs =>
    have hreference := hshape
    cases hreference with
    | @intro b bs hb hbs =>
      have hlead : Lead.ofByte b = .root := by rcases hb with rfl | rfl <;> rfl
      refine ⟨b, bs, rfl, isSpace_eq_false_of_lead (by simp [hlead]), ?_⟩
      have hread : (Cursor.ofBytes (b :: (bs ++ rest))).readReference =
          .ok () ⟨(b :: bs).reverse, rest⟩ :=
        (Cursor.readReference_eq_ok_iff hb).mpr ⟨by rwa [List.reverse_reverse], hends, by simp⟩
      have hreference : IsRead afterOperand b (bs ++ rest) _ _ := .reference hlead hread
      rwa [List.reverse_reverse] at hreference
  | word bs call =>
    obtain ⟨b, more, rfl, hb, hmore⟩ := hshape
    obtain ⟨hrest, rfl⟩ := hends
    obtain ⟨htake, hdrop⟩ := span_append hmore hrest
    have hread : IsRead afterOperand b (more ++ rest) _ _ := .word hb
    rw [htake, hdrop] at hread
    exact ⟨b, more, rfl, isSpace_eq_false_of_lead (by simp [hb]), hread⟩
  | symbol first more =>
    obtain ⟨hb, hspace, hmore⟩ := hshape
    obtain ⟨htake, hdrop⟩ := span_append hmore hends
    have hread : IsRead afterOperand first (more ++ rest) _ _ := .symbol hb
    rw [htake, hdrop] at hread
    exact ⟨first, more, rfl, hspace, hread⟩
  | openParen => exact ⟨_, [], rfl, rfl, .openParen rfl⟩
  | closeParen => exact ⟨_, [], rfl, rfl, .closeParen rfl⟩
  | dot => exact ⟨_, [], rfl, rfl, .dot rfl⟩

/-- A lexeme is read exactly where the three conditions hold. -/
theorem standsBefore_iff : l.StandsBefore afterOperand rest ↔
    l.IsShaped ∧ l.MayFollow afterOperand ∧ l.EndsBefore rest.head? := by
  constructor
  · rintro ⟨b, more, -, hspace, hread⟩
    exact ⟨isShaped_of_isRead hread hspace, mayFollow_of_isRead hread, endsBefore_of_isRead hread⟩
  · rintro ⟨hshape, hfollow, hends⟩
    exact standsBefore_of_endsBefore hshape hfollow hends

/-! ### In front of space -/

/-- No lexeme goes on with space. -/
theorem ends_of_isSpace (hb : Byte.isSpace b) :
    (Byte.isWord b = false ∧ b ≠ '('.toUInt8) ∧ Utf8.isContinuation b = false ∧
      Byte.isReference b = false ∧ Byte.isQuote b = false ∧ b ≠ '['.toUInt8 ∧ b ≠ '('.toUInt8 := by
  rcases Byte.eq_of_isSpace hb with rfl | rfl | rfl | rfl <;> decide

/-- Where no more than space follows, every lexeme ends, unless it should be called. -/
theorem endsBefore_of_endsWord (hl : ∀ bs, l ≠ .word bs true) (hrest : EndsWord rest) :
    l.EndsBefore rest.head? := by
  cases l with
  | operator m =>
    intro b hb op hop
    have hspace := op.isSpace_eq_false_of_mem b (by rw [hop]; simp)
    rw [hrest b hb] at hspace
    cases hspace
  | number bs => exact Literal.stopsNumber_of_endsWord bs hrest
  | reference bs => exact fun b hb => (ends_of_isSpace (hrest b hb)).2.2
  | word bs call =>
    cases call with
    | true => exact absurd rfl (hl bs)
    | false =>
      refine ⟨fun b hb => (ends_of_isSpace (hrest b hb)).1.1, ?_⟩
      cases rest with
      | nil => rfl
      | cons b rest => simpa using (ends_of_isSpace (hrest b rfl)).1.2
  | symbol first more => exact fun b hb => (ends_of_isSpace (hrest b hb)).2.1
  | quoted | openParen | closeParen | dot => trivial

/-- Whatever ends at the end of a text also ends in front of the bytes. -/
def AllEnd (more : List UInt8) : Prop :=
  ∀ l : Lexeme, l.EndsBefore none → l.EndsBefore more.head?

theorem allEnd_of_endsWord {more : List UInt8} (hmore : EndsWord more) : AllEnd more := by
  intro l hl
  refine endsBefore_of_endsWord ?_ hmore
  -- a called word does not stand at the end
  rintro bs rfl
  cases hl.2

theorem allEnd_closeParen (more : List UInt8) : AllEnd (')'.toUInt8 :: more) := by
  intro l hl
  cases l with
  | operator m =>
    have hparen : ∀ op ∈ Operator.all, ')'.toUInt8 ∉ op.bytes := by decide
    intro b hb op hop
    cases hb
    exact hparen op op.mem_all (by rw [hop]; simp)
  | number bs => exact Literal.stopsNumber_closeParen bs
  | reference bs =>
    intro b hb
    cases hb
    decide
  | word bs call =>
    obtain ⟨-, rfl⟩ := hl
    refine ⟨?_, rfl⟩
    intro b hb
    cases hb
    rfl
  | symbol first more =>
    intro b hb
    cases hb
    rfl
  | quoted | openParen | closeParen | dot => trivial

/-- A lexeme still ends where more comes behind what follows. -/
theorem EndsBefore.append {more : List UInt8} (h : l.EndsBefore rest.head?)
    (hmore : AllEnd more) : l.EndsBefore (rest ++ more).head? := by
  cases rest with
  | cons b rest => exact h
  | nil => exact hmore l h

end Lexeme

/-! ### Pieces of a reading -/

variable {start last : Bool} {bytes gap rest left : List UInt8} {l : Lexeme} {ps : List Piece}

/-- A gap and a lexeme that is read in front of the rest are one piece. -/
theorem Reads.of_standsBefore (hgap : Byte.IsGap gap) (h : l.StandsBefore start rest) :
    Reads start (gap ++ (l.bytes ++ rest)) [⟨gap, l⟩] l.endsOperand rest := by
  obtain ⟨b, more, hbytes, hb, hread⟩ := h
  rw [hbytes]
  exact .single hgap hb hread

theorem Reads.nil_iff : Reads start bytes [] last left ↔ start = last ∧ bytes = left := by
  constructor
  · intro h
    cases h
    exact ⟨rfl, rfl⟩
  · rintro ⟨rfl, rfl⟩
    exact .refl _ _

/-- A reading is its first piece and the reading of the others. -/
theorem Reads.cons_iff {p : Piece} : Reads start bytes (p :: ps) last left ↔
    ∃ rest, bytes = p.gap ++ (p.lexeme.bytes ++ rest) ∧ Byte.IsGap p.gap ∧
      p.lexeme.StandsBefore start rest ∧ Reads p.lexeme.endsOperand rest ps last left := by
  constructor
  · intro h
    cases h with
    | @piece _ _ _ _ after _ b _ _ hgap hb hl hps =>
      obtain ⟨more, hmore⟩ := Lexeme.bytes_eq_cons_of_isRead hl
      have happend := Lexeme.bytes_append_of_isRead hl
      refine ⟨after, by rw [happend], hgap, ⟨b, more, hmore, hb, ?_⟩, hps⟩
      rw [hmore, List.cons_append] at happend
      rwa [(List.cons.inj happend).2]
  · rintro ⟨rest, rfl, hgap, hl, hps⟩
    exact (Reads.of_standsBefore hgap hl).trans hps

/-- The first byte that is no space is the first one of the first lexeme. -/
theorem Reads.head?_dropWhile {p : Piece} (h : Reads start bytes (p :: ps) last left) :
    (bytes.dropWhile Byte.isSpace).head? = p.lexeme.bytes.head? := by
  obtain ⟨rest, rfl, hgap, ⟨b, front, hbytes, hb, -⟩, -⟩ := Reads.cons_iff.mp h
  rw [hbytes, List.cons_append, (Reading.span_isSpace hgap hb).2]
  rfl

end PathFormula
