import PathFormula.Proofs.Layout

/-!
# The kinds of tokens

What the tokens of a formula are can be said without the reader.  The stretch of each is
of exactly one kind, it does not go on with the byte that follows it, and where it begins
with a sign the stretch in front of it decides which kind it is.

## Main definitions

* `Kind` — the kinds, and `Kind.Has`, the stretches of each.
* `Kind.EndsBefore` — a stretch of a kind does not go on with a byte.
* `Segment.EndsOperand` — an operand ends with a stretch.
* `Segment.IsPlaced` — what holds of a stretch between those in front of it and the text
  behind it.

## Main results

* `Kind.unique` — no stretch is of two kinds.
* `TokenList.isPlaced_of_ofFormula` — **every token has a kind, ends where it must, and
  is an operator rather than a number exactly behind an operand.**
-/

namespace PathFormula

/-- What a token can be. -/
inductive Kind where
  /-- An operator, or the single equals sign. -/
  | operator
  /-- A number. -/
  | number
  /-- A string with its quotes. -/
  | quoted
  /-- A path reference. -/
  | reference
  /-- An opening parenthesis. -/
  | openParen
  /-- A closing parenthesis. -/
  | closeParen
  /-- A point. -/
  | dot
  /-- A bare word. -/
  | word
  /-- Any other character. -/
  | symbol
  deriving DecidableEq, Repr

/-- Whether a character stands by itself: it is no space, and no character that another
kind of token begins with. -/
def isLone (c : Char) : Bool :=
  !(c.isAlphanum || [' ', '\t', '\n', '\r', '_', '"', '\'', '$', '@', '.', '(', ')', '!', '*', '/',
    '%', '<', '>', '&', '|', '^', '+', '-', '='].contains c)

namespace Kind

/-- The stretches of a kind. -/
def Has : Kind → String → Prop
  | operator, s => ∃ m : Mark, s = m.symbol
  | number, s => Literal.IsNumber (Utf8.bytes s)
  | quoted, s => Literal.IsQuoted (Utf8.bytes s)
  | reference, s => IsReference (Utf8.bytes s)
  | openParen, s => s = "("
  | closeParen, s => s = ")"
  | dot, s => s = "."
  | word, s => isBareWord s
  | symbol, s => ∃ c, isLone c ∧ s = String.singleton c

/-- A stretch of the kind does not go on with the byte `next`, or nothing follows. -/
def EndsBefore : Kind → String → Option UInt8 → Prop
  | operator, s, next => ∀ b ∈ next, ∀ op : Operator, op.bytes ≠ Utf8.bytes s ++ [b]
  | number, s, next => ∀ b ∈ next, ¬ Literal.BeginsNumber (Utf8.bytes s ++ [b])
  | reference, _, next => StopsReference next
  | word, _, next => ∀ b ∈ next, Byte.isWord b = false
  | quoted, _, _ | openParen, _, _ | closeParen, _, _ | dot, _, _ | symbol, _, _ => True

/-- An operand ends with a stretch of the kind in front of the byte `next`. -/
def EndsOperand : Kind → String → Option UInt8 → Prop
  | number, _, _ | quoted, _, _ | reference, _, _ | closeParen, _, _ | dot, _, _ => True
  | word, _, next => next ≠ some '('.toUInt8
  | symbol, s, _ => s = "]" ∨ s = "\x7d"
  | operator, s, _ => s = "!"
  | openParen, _, _ => False

end Kind

namespace Segment

/-- An operand ends with the stretch, behind which the text `rest` stands. -/
def EndsOperand (seg : Segment) (rest : String) : Prop :=
  ∃ k : Kind, k.Has seg.source ∧ k.EndsOperand seg.source (Utf8.bytes rest).head?

/-- What holds of a stretch behind the stretches `before` and in front of the stretches
`after` and the space `trail`. -/
structure IsPlaced (before : List Segment) (seg : Segment) (after : List Segment)
    (trail : String) : Prop where
  /-- It is of exactly one kind. -/
  kind : ∃! k : Kind, k.Has seg.source
  /-- It does not go on with the byte that follows. -/
  ends : ∀ k : Kind, k.Has seg.source →
    k.EndsBefore seg.source (Utf8.bytes (join after ++ trail)).head?
  /-- With a sign it begins an operator if an operand ends in front of it. -/
  operator_iff : ∀ b ∈ (Utf8.bytes seg.source).head?, Byte.isSign b →
    (Kind.operator.Has seg.source ↔
      ∃ prev ∈ before.getLast?, prev.EndsOperand (join (seg :: after) ++ trail))
  /-- And otherwise a negative number. -/
  number_of_not_operator : ∀ b ∈ (Utf8.bytes seg.source).head?, Byte.isSign b →
    ¬ Kind.operator.Has seg.source → Kind.number.Has seg.source ∧ b = '-'.toUInt8

end Segment

/-! ### Lone characters -/

/-- A text whose bytes behind the first continue a character is a single character. -/
theorem exists_eq_singleton {s : String} {b : UInt8} {more : List UInt8}
    (hs : Utf8.bytes s = b :: more) (hmore : ∀ x ∈ more, Utf8.isContinuation x) :
    ∃ c, s = String.singleton c := by
  unfold Utf8.bytes at hs
  cases hcs : s.toList with
  | nil => simp [hcs] at hs
  | cons c cs =>
    refine ⟨c, String.toList_inj.mp ?_⟩
    rw [hcs, String.toList_singleton]
    cases cs with
    | nil => rfl
    | cons c' cs =>
      -- the first byte of a second character would continue none
      obtain ⟨x, xs, hx⟩ := List.exists_cons_of_ne_nil (String.utf8EncodeChar_ne_nil (c := c'))
      obtain ⟨y, ys, hy⟩ := List.exists_cons_of_ne_nil (String.utf8EncodeChar_ne_nil (c := c))
      have hhead := Utf8.isContinuation_head c' x (by rw [hx]; rfl)
      rw [hcs, Utf8.encode_cons, Utf8.encode_cons, hx, hy] at hs
      have hmem : Utf8.isContinuation x := hmore x (by rw [← (List.cons.inj hs).2]; simp)
      rw [hhead] at hmem
      cases hmem

/-- An ASCII character is known by the first byte of its text. -/
theorem singleton_eq_iff {c : Char} {b first : UInt8} {more : List UInt8}
    (hs : Utf8.bytes (String.singleton c) = first :: more) (hb : b < 0x80) :
    String.singleton c = String.singleton (Char.ofUInt8 b) ↔ first = b := by
  have hbytes : Utf8.bytes (String.singleton (Char.ofUInt8 b)) = [b] := by
    rw [Utf8.bytes, String.toList_singleton, Utf8.encode_ofUInt8_cons hb, Utf8.encode_nil]
  constructor
  · intro h
    rw [h, hbytes] at hs
    exact (List.cons.inj hs).1.symm
  · rintro rfl
    have happend : [first] ++ more = Utf8.encode (String.singleton c).toList := hs.symm
    obtain ⟨back, hback, -⟩ := Utf8.exists_encode_of_ascii_append happend (by simpa using hb)
    rw [String.toList_singleton] at hback
    rw [(List.cons.inj hback).1]

/-- The lone characters are those that no other kind of token begins with. -/
theorem isLone_iff {c : Char} {b : UInt8} {more : List UInt8}
    (hc : String.utf8EncodeChar c = b :: more) :
    isLone c ↔ Lead.ofByte b = .symbol ∧ Byte.isSpace b = false := by
  by_cases hlt : c.toNat < 0x80
  · have hascii : ∀ b : UInt8, b < 0x80 →
        (isLone (Char.ofUInt8 b) ↔ Lead.ofByte b = .symbol ∧ Byte.isSpace b = false) := by
      decide +kernel
    obtain ⟨x, hx, rfl⟩ := Utf8.exists_ofUInt8_eq hlt
    rw [Utf8.utf8EncodeChar_ofUInt8 hx] at hc
    cases hc
    exact hascii b hx
  · have hhigh : ∀ b : UInt8, 0x80 ≤ b → Lead.ofByte b = .symbol ∧ Byte.isSpace b = false := by
      decide +kernel
    have hb : 0x80 ≤ b := Utf8.le_of_mem_utf8EncodeChar hlt b (by rw [hc]; simp)
    refine iff_of_true ?_ (hhigh b hb)
    unfold isLone
    rw [Bool.not_eq_true', Bool.or_eq_false_iff]
    constructor
    · by_contra halpha
      exact hlt (toNat_lt_of_isAlphanum (by simpa using halpha))
    · have hall : [' ', '\t', '\n', '\r', '_', '"', '\'', '$', '@', '.', '(', ')', '!', '*', '/',
          '%', '<', '>', '&', '|', '^', '+', '-', '='].all (·.toNat < 0x80) := by decide
      by_contra hmem
      have hc := List.contains_iff_mem.mp (eq_true_of_ne_false hmem)
      exact hlt (by simpa using List.all_eq_true.mp hall c hc)

/-! ### The kind of a lexeme -/

namespace Lexeme

/-- The kind of a lexeme. -/
def kind : Lexeme → Kind
  | operator _ => .operator
  | number _ => .number
  | quoted _ => .quoted
  | reference _ => .reference
  | openParen => .openParen
  | closeParen => .closeParen
  | dot => .dot
  | word _ _ => .word
  | symbol _ _ => .symbol

variable {l l' : Lexeme} {s : String}

/-- A lexeme is read from its own bytes alone, unless it is a called word. -/
theorem standsBefore_nil (hshape : l.IsShaped) (hl : ∀ bs, l ≠ .word bs true) :
    l.StandsBefore l.isMark [] :=
  standsBefore_of_endsBefore hshape (fun _ _ _ => rfl) (endsBefore_of_endsWord hl endsWord_nil)

theorem kind_has (hshape : l.IsShaped) (hs : Utf8.bytes s = l.bytes) : l.kind.Has s := by
  cases l with
  | operator m => exact ⟨m, Utf8.bytes_injective (hs.trans (bytes_symbol m).symm)⟩
  | number bs | quoted bs | reference bs =>
    rw [bytes] at hs
    rw [kind, Kind.Has, hs]
    exact hshape
  | openParen | closeParen | dot => exact Utf8.bytes_injective hs
  | word bs call =>
    have hshape' : (Lexeme.word bs false).IsShaped := hshape
    obtain ⟨b, more, -, -, hread⟩ := standsBefore_nil hshape' (by simp)
    obtain rfl : Utf8.bytes s = bs := hs
    exact isBareWord_of_word hread
  | symbol first more =>
    obtain ⟨hb, hspace, hmore⟩ := hshape
    obtain ⟨c, rfl⟩ := exists_eq_singleton hs hmore
    have hc : String.utf8EncodeChar c = first :: more := by
      rw [bytes, Utf8.bytes, String.toList_singleton, Utf8.encode_cons, Utf8.encode_nil,
        List.append_nil] at hs
      exact hs
    exact ⟨c, (isLone_iff hc).mpr ⟨hb, hspace⟩, rfl⟩

/-- A stretch of a kind is written as a lexeme of this kind is. -/
theorem exists_of_kind_has {k : Kind} (h : k.Has s) :
    ∃ l : Lexeme, l.kind = k ∧ l.bytes = Utf8.bytes s ∧ l.IsShaped ∧ ∀ bs, l ≠ .word bs true := by
  cases k with
  | operator =>
    obtain ⟨m, rfl⟩ := h
    exact ⟨.operator m, rfl, (bytes_symbol m).symm, trivial, by simp⟩
  | number => exact ⟨.number (Utf8.bytes s), rfl, rfl, h, by simp⟩
  | quoted => exact ⟨.quoted (Utf8.bytes s), rfl, rfl, h, by simp⟩
  | reference => exact ⟨.reference (Utf8.bytes s), rfl, rfl, h, by simp⟩
  | openParen =>
    obtain rfl : s = "(" := h
    exact ⟨.openParen, rfl, rfl, trivial, by simp⟩
  | closeParen =>
    obtain rfl : s = ")" := h
    exact ⟨.closeParen, rfl, rfl, trivial, by simp⟩
  | dot =>
    obtain rfl : s = "." := h
    exact ⟨.dot, rfl, rfl, trivial, by simp⟩
  | word =>
    obtain ⟨b, more, hs, hb, hmore⟩ := exists_bytes_of_isBareWord h
    exact ⟨.word (Utf8.bytes s) false, rfl, rfl, ⟨b, more, hs, hb, hmore⟩, by simp⟩
  | symbol =>
    obtain ⟨c, hlone, rfl⟩ := h
    obtain ⟨b, more, hc⟩ := List.exists_cons_of_ne_nil (String.utf8EncodeChar_ne_nil (c := c))
    obtain ⟨hb, hspace⟩ := (isLone_iff hc).mp hlone
    refine ⟨.symbol b more, rfl, ?_, ⟨hb, hspace, fun x hx => ?_⟩, by simp⟩
    · rw [bytes, Utf8.bytes, String.toList_singleton, Utf8.encode_cons, Utf8.encode_nil,
        List.append_nil, hc]
    · exact Utf8.isContinuation_of_mem_tail (c := c) (by rwa [hc])

/-- A number holds a digit, and no mark does. -/
theorem not_isNumber_bytes (m : Mark) : ¬ Literal.IsNumber m.bytes := by
  have hmarks : m.bytes.all fun b => !Byte.isDigit b := by
    have h : ∀ op ∈ Operator.all, op.bytes.all fun b => !Byte.isDigit b := by decide
    rcases m with op | _
    · exact h op op.mem_all
    · rfl
  have hdigit {bs : List UInt8} (h : Literal.IsNumber bs) : ∃ b ∈ bs, Byte.isDigit b := by
    cases h with
    | unsigned hwhole | signed hwhole =>
      obtain ⟨hne, hdigits⟩ := hwhole
      obtain ⟨d, ds, rfl⟩ := List.exists_cons_of_ne_nil hne
      exact ⟨d, by simp, hdigits d List.mem_cons_self⟩
  intro h
  obtain ⟨b, hb, hd⟩ := hdigit h
  simpa [hd] using List.all_eq_true.mp hmarks b hb

/-- A lexeme that is written as a mark is one. -/
theorem isMark_of_bytes_eq {m : Mark} (hshape : l.IsShaped) (hl : ∀ bs, l ≠ .word bs true)
    (hbytes : l.bytes = m.bytes) : l.isMark := by
  obtain ⟨b, more, hb, -, hread⟩ := standsBefore_nil hshape hl
  obtain ⟨b', more', hm, hop⟩ := m.exists_bytes_eq_cons
  rw [hb, hm] at hbytes
  rw [← (List.cons.inj hbytes).1] at hop
  have hlead : Lead.ofByte b = .operator ∨ Lead.ofByte b = .sign := by
    simpa using Byte.of_isOperator (p := fun b => Lead.ofByte b = .operator ∨ Lead.ofByte b = .sign)
      hop (by decide)
  have hallows := allows_of_isRead hread
  cases l with
  | operator => rfl
  | number bs =>
    have hbs : bs = m.bytes := hb.trans (hbytes.trans hm.symm)
    exact absurd (hbs ▸ hshape) (not_isNumber_bytes m)
  | _ => rcases hlead with h | h <;> rw [h] at hallows <;> cases hallows

/-- Lexemes that are written alike are the same, if they are no called words. -/
theorem eq_of_bytes_eq (h : l.IsShaped) (h' : l'.IsShaped) (hbytes : l.bytes = l'.bytes)
    (hl : ∀ bs, l ≠ .word bs true) (hl' : ∀ bs, l' ≠ .word bs true) : l = l' := by
  have hmark : l.isMark = l'.isMark := by
    rw [Bool.eq_iff_iff]
    constructor
    · intro hm
      cases l with
      | operator m => exact isMark_of_bytes_eq h' hl' hbytes.symm
      | _ => cases hm
    · intro hm
      cases l' with
      | operator m => exact isMark_of_bytes_eq h hl hbytes
      | _ => cases hm
  -- so both are what the reader answers for these bytes
  obtain ⟨b, more, hb, -, hread⟩ := standsBefore_nil h hl
  obtain ⟨b', more', hb', -, hread'⟩ := standsBefore_nil h' hl'
  rw [hb, hb'] at hbytes
  obtain ⟨rfl, rfl⟩ := List.cons.inj hbytes
  rw [← hmark] at hread'
  have hanswer := (read_eq_ok_iff.mpr hread).symm.trans (read_eq_ok_iff.mpr hread')
  exact (Prod.mk.inj (Except.ok.inj hanswer)).1

end Lexeme

/-- No stretch is of two kinds. -/
theorem Kind.unique {k k' : Kind} {s : String} (h : k.Has s) (h' : k'.Has s) : k = k' := by
  obtain ⟨l, rfl, hbytes, hshape, hl⟩ := Lexeme.exists_of_kind_has h
  obtain ⟨l', rfl, hbytes', hshape', hl'⟩ := Lexeme.exists_of_kind_has h'
  rw [Lexeme.eq_of_bytes_eq hshape hshape' (hbytes.trans hbytes'.symm) hl hl']

/-! ### Lexemes as stretches -/

namespace Lexeme

variable {l : Lexeme} {s : String}

/-- With a sign only operators and negative numbers begin. -/
theorem eq_number_of_isSign {start : Bool} {rest : List UInt8} {b : UInt8}
    (hl : l.StandsBefore start rest) (hb : b ∈ l.bytes.head?) (hsign : Byte.isSign b)
    (hmark : ¬ l.isMark) : ∃ bs, l = .number bs ∧ b = '-'.toUInt8 := by
  have hshape := (standsBefore_iff.mp hl).1
  obtain ⟨b', more, hbytes, -, hread⟩ := hl
  rw [hbytes] at hb
  cases hb
  have hallows := allows_of_isRead hread
  rw [(Lead.ofByte_eq_iff .sign b).mpr hsign] at hallows
  cases l with
  | operator m => exact absurd rfl hmark
  | number bs =>
    obtain rfl : bs = b :: more := hbytes
    refine ⟨_, rfl, ?_⟩
    rcases isDigit_or_eq_of_isNumber hshape with hdigit | hminus
    · rcases Byte.eq_of_isSign hsign with rfl | rfl <;> cases hdigit
    · exact hminus
  | _ => cases hallows

theorem kind_eq_iff (hshape : l.IsShaped) (hs : Utf8.bytes s = l.bytes) (k : Kind) :
    k.Has s ↔ l.kind = k := by
  constructor
  · exact Kind.unique (kind_has hshape hs)
  · rintro rfl
    exact kind_has hshape hs

theorem kind_endsBefore {next : Option UInt8} (hs : Utf8.bytes s = l.bytes)
    (h : l.EndsBefore next) : l.kind.EndsBefore s next := by
  cases l with
  | operator m =>
    rw [kind, Kind.EndsBefore, hs]
    exact h
  | number bs =>
    rw [kind, Kind.EndsBefore, hs]
    exact fun b hb => (h b hb).1
  | reference bs => exact h
  | word bs call => exact h.1
  | quoted | openParen | closeParen | dot | symbol => trivial

/-- The lexemes an operand ends with are the stretches it ends with. -/
theorem kind_endsOperand_iff {next : Option UInt8} (hshape : l.IsShaped)
    (hs : Utf8.bytes s = l.bytes) (h : l.EndsBefore next) :
    l.kind.EndsOperand s next ↔ l.endsOperand := by
  cases l with
  | number bs | quoted bs | reference bs | closeParen | dot => exact iff_of_true trivial rfl
  | openParen => exact iff_of_false id (by decide)
  | word bs call =>
    obtain ⟨-, rfl⟩ := h
    simp [kind, Kind.EndsOperand, endsOperand]
  | operator m =>
    obtain rfl : s = m.symbol := Utf8.bytes_injective (hs.trans (bytes_symbol m).symm)
    change m.symbol = "!" ↔ m.isPostfix
    rcases m with op | _
    · cases op <;> decide
    · exact iff_of_false (by decide : Mark.equals.symbol ≠ "!") (by decide)
  | symbol first more =>
    obtain ⟨-, -, hmore⟩ := hshape
    obtain ⟨c, rfl⟩ := exists_eq_singleton hs hmore
    rw [kind, Kind.EndsOperand, endsOperand, Bool.or_eq_true, beq_iff_eq, beq_iff_eq,
      ← singleton_eq_iff hs (by decide), ← singleton_eq_iff hs (by decide)]
    rfl

end Lexeme

/-! ### Stretches in their places -/

variable {start last : Bool} {bytes left : List UInt8} {ps qs : List Piece}
  {segs before after : List Segment} {seg prev : Segment} {trail : String}

/-- Pieces that were read from stretches in two rows are in two rows. -/
theorem exists_append_of_holds (h : List.Forall₂ Segment.Holds (before ++ after) ps) :
    ∃ front back, ps = front ++ back ∧ List.Forall₂ Segment.Holds before front ∧
      List.Forall₂ Segment.Holds after back := by
  induction before generalizing ps with
  | nil => exact ⟨[], ps, rfl, .nil, h⟩
  | cons seg before ih =>
    cases h with
    | cons hp h =>
      obtain ⟨front, back, rfl, hfront, hback⟩ := ih h
      exact ⟨_ :: front, back, rfl, .cons hp hfront, hback⟩

/-- A formula that was cut is read up to the space behind its stretches. -/
theorem exists_reads_of_isSplit {s : String} (h : IsSplit s segs trail) :
    ∃ last, Reads false (Utf8.bytes s) (Reading.ofText s).pieces last (Utf8.bytes trail) := by
  obtain ⟨last, left, hreads, -⟩ := Reading.exists_reads_ofText s
  have hbytes := bytes_join h.holds trail
  rw [← h.text_eq, ← hreads.bytes_append] at hbytes
  rw [← List.append_cancel_left hbytes]
  exact ⟨last, hreads⟩

/-- An operand ends with a stretch if one ends with the lexeme read from it. -/
theorem Segment.endsOperand_iff {p : Piece} {rest : String} (hp : seg.Holds p)
    (hl : p.lexeme.StandsBefore start (Utf8.bytes rest)) :
    seg.EndsOperand rest ↔ p.lexeme.endsOperand := by
  obtain ⟨hshape, -, hends⟩ := Lexeme.standsBefore_iff.mp hl
  rw [← Lexeme.kind_endsOperand_iff hshape hp.source_eq hends]
  constructor
  · rintro ⟨k, hk, hoperand⟩
    rwa [(Lexeme.kind_eq_iff hshape hp.source_eq k).mp hk]
  · exact fun hoperand => ⟨_, Lexeme.kind_has hshape hp.source_eq, hoperand⟩

/-- Behind stretches an operand has ended if one ends with the last of them. -/
theorem exists_endsOperand_iff {rest : String} (h : Reads false bytes ps last (Utf8.bytes rest))
    (hholds : List.Forall₂ Segment.Holds before ps) :
    (∃ prev ∈ before.getLast?, prev.EndsOperand rest) ↔ last := by
  rcases List.eq_nil_or_concat' before with rfl | ⟨front, prev, rfl⟩
  · cases hholds
    obtain ⟨rfl, -⟩ := Reads.nil_iff.mp h
    simp
  · obtain ⟨qs, back, rfl, -, hback⟩ := exists_append_of_holds hholds
    cases hback with
    | @cons _ p _ _ hp hnil =>
    cases hnil
    obtain ⟨middle, between, -, hlast⟩ := h.split
    obtain ⟨after, -, -, hl, hend⟩ := Reads.cons_iff.mp hlast
    obtain ⟨rfl, rfl⟩ := Reads.nil_iff.mp hend
    simp [Segment.endsOperand_iff hp hl]

/-- A stretch is placed where its lexeme was read. -/
theorem isPlaced_of_standsBefore {p : Piece} (hp : seg.Holds p)
    (hl : p.lexeme.StandsBefore start (Utf8.bytes (Segment.join after ++ trail)))
    (hstart : (∃ prev ∈ before.getLast?,
      prev.EndsOperand (Segment.join (seg :: after) ++ trail)) ↔ start) :
    Segment.IsPlaced before seg after trail := by
  obtain ⟨hshape, hfollow, hends⟩ := Lexeme.standsBefore_iff.mp hl
  have hkind := Lexeme.kind_eq_iff hshape hp.source_eq
  have hmark : Kind.operator.Has seg.source ↔ p.lexeme.isMark := by
    rw [hkind]
    cases p.lexeme <;> simp [Lexeme.kind, Lexeme.isMark]
  refine ⟨⟨p.lexeme.kind, (hkind _).mpr rfl, fun k hk => ((hkind k).mp hk).symm⟩, ?_, ?_, ?_⟩
  · intro k hk
    rw [← (hkind k).mp hk]
    exact Lexeme.kind_endsBefore hp.source_eq hends
  · intro b hb hsign
    rw [hp.source_eq] at hb
    rw [hmark, hfollow b hb hsign, hstart]
  · intro b hb hsign hnot
    rw [hmark] at hnot
    rw [hp.source_eq] at hb
    obtain ⟨bs, hnumber, hminus⟩ := Lexeme.eq_number_of_isSign hl hb hsign hnot
    exact ⟨(hkind .number).mpr (by rw [hnumber]; rfl), hminus⟩

namespace TokenList

/-- **Every token has a kind, ends where it must, and is an operator rather than a number
exactly behind an operand.** -/
theorem isPlaced_of_ofFormula {s : String} {ts : TokenList} (h : ofFormula s = .ok ts) :
    (∃ segs trail, IsSplit s segs trail) ∧
      ∀ segs trail, IsSplit s segs trail → ts.tokens = segs.map Segment.token ∧
        ∀ before seg after, segs = before ++ seg :: after →
          Segment.IsPlaced before seg after trail := by
  refine ⟨exists_isSplit h, ?_⟩
  intro segs trail hsplit
  constructor
  · obtain ⟨gap, -, rfl⟩ := ofFormula_eq_ok_iff.mp h
    exact map_token_eq hsplit.holds
  · rintro before seg after rfl
    obtain ⟨last, hreads⟩ := exists_reads_of_isSplit hsplit
    obtain ⟨front, back, hpieces, hfront, hback⟩ := exists_append_of_holds hsplit.holds
    rw [hpieces] at hreads
    obtain ⟨middle, between, hbefore, hrest⟩ := hreads.split
    -- behind the stretches in front, the others and the space at the end are left
    have hbetween : between = Utf8.bytes (Segment.join (seg :: after) ++ trail) := by
      rw [bytes_join hback, hrest.bytes_append]
    rw [hbetween] at hbefore
    cases hback with
    | @cons _ p _ ps hp hafter =>
    obtain ⟨rest, -, -, hl, hps⟩ := Reads.cons_iff.mp hrest
    have hbehind : rest = Utf8.bytes (Segment.join after ++ trail) := by
      rw [bytes_join hafter, hps.bytes_append]
    rw [hbehind] at hl
    exact isPlaced_of_standsBefore hp hl (exists_endsOperand_iff hbefore hfront)

/-- A formula with signs behind a factorial, a parenthesis and a bracket. -/
theorem isPlaced_of_ofFormula_signs :
    ofFormula "2!-(-1)]+x" = .ok ⟨["2", "!", "-", "(", "-1", ")", "]", "+", "x"]⟩ ∧
      ∃ segs trail, IsSplit "2!-(-1)]+x" segs trail ∧
        segs.map Segment.token = ["2", "!", "-", "(", "-1", ")", "]", "+", "x"] ∧
        ∀ before seg after, segs = before ++ seg :: after →
          Segment.IsPlaced before seg after trail := by
  have h : ofFormula "2!-(-1)]+x" = .ok ⟨["2", "!", "-", "(", "-1", ")", "]", "+", "x"]⟩ := by
    decide +kernel
  obtain ⟨⟨segs, trail, hsplit⟩, hall⟩ := isPlaced_of_ofFormula h
  obtain ⟨htokens, hplaced⟩ := hall segs trail hsplit
  exact ⟨h, segs, trail, hsplit, htokens.symm, hplaced⟩

end TokenList

end PathFormula
