import Mathlib.Data.FinEnum
import PathFormula.Lexeme.Reader
import PathFormula.Proofs.Encoding

/-!
# The shape of a lexeme

What it means that a lexeme was read: of which kind it is, which bytes it took,
and where it left off.  Every later fact about single lexemes is a case analysis
on `Lexeme.IsRead`, never on the reader itself.

A class of few bytes is known by its characters, so that what is said of these bytes can be
checked for each of them.

## Main definitions

* `Lead.describes`, `Lead.allows` — the bytes that announce a kind of lexeme, and
  the lexemes of this kind.
* `Lexeme.IsRead` — how a lexeme can be read, one case for each kind.

## Main results

* `Byte.eq_of_isSpace`, `Byte.eq_of_isSign`, `Byte.eq_of_isQuote`, `Byte.of_isOperator` — the
  bytes of four classes.
* `Lead.ofByte_eq_iff` — which bytes announce what.
* `Byte.isOperator_eq`, `Byte.isWord_eq` and the like — the classes by what their bytes
  announce.
* `read_eq_ok_iff` — the reader reads what `IsRead` allows, and nothing else.
* `allows_of_isRead` — a lexeme is of a kind that its first byte announces.
* `bytes_append_of_isRead` — a lexeme takes the bytes it is written with, and
  leaves the others.
-/

namespace PathFormula

/-! ### Bytes of the small classes -/

namespace Byte

variable {b : UInt8}

/-- A byte is known by its character. -/
theorem eq_of_ofUInt8 {c : Char} (h : Char.ofUInt8 b = c) : b = c.toUInt8 := by
  rw [← h]
  exact UInt8.ofNat_toNat.symm

theorem ne_of_ofUInt8_ne {c : Char} (hc : Char.ofUInt8 c.toUInt8 = c) (h : Char.ofUInt8 b ≠ c) :
    b ≠ c.toUInt8 := by
  rintro rfl
  exact h hc

theorem eq_of_isSpace (hb : isSpace b) :
    b = ' '.toUInt8 ∨ b = '\t'.toUInt8 ∨ b = '\n'.toUInt8 ∨ b = '\r'.toUInt8 := by
  unfold isSpace at hb
  split at hb
  case h_5 => cases hb
  all_goals next h => simp [eq_of_ofUInt8 h]

theorem eq_of_isSign (hb : isSign b) : b = '+'.toUInt8 ∨ b = '-'.toUInt8 := by
  unfold isSign at hb
  split at hb
  case h_3 => cases hb
  all_goals next h => simp [eq_of_ofUInt8 h]

theorem eq_of_isQuote (hb : isQuote b) : b = doubleQuote ∨ b = singleQuote := by
  simpa [isQuote] using hb

/-- What holds of the twelve characters that operators begin with holds of every operator
byte. -/
theorem of_isOperator {p : UInt8 → Bool} (hb : isOperator b)
    (h : ['!', '*', '/', '%', '<', '>', '&', '|', '^', '+', '-', '='].all (p ·.toUInt8)) : p b := by
  rw [List.all_eq_true] at h
  unfold isOperator at hb
  split at hb
  case h_13 => cases hb
  all_goals next hc =>
    rw [eq_of_ofUInt8 hc]
    exact h _ (by simp)

/-- A sign is an operator byte. -/
theorem isOperator_of_isSign (hb : isSign b) : isOperator b := by
  rcases eq_of_isSign hb with rfl | rfl <;> rfl

end Byte

/-! ### What a byte announces -/

/-- The bytes that announce a kind of lexeme. -/
def Lead.describes : Lead → UInt8 → Bool
  | operator, b => Byte.isOperator b && !Byte.isSign b
  | sign, b => Byte.isSign b
  | digit, b => Byte.isDigit b
  | dot, b => b == '.'.toUInt8
  | quote, b => Byte.isQuote b
  | root, b => b == '$'.toUInt8 || b == '@'.toUInt8
  | openParen, b => b == '('.toUInt8
  | closeParen, b => b == ')'.toUInt8
  | word, b => Byte.isWord b && !Byte.isDigit b
  | symbol, b =>
    !(Byte.isOperator b || Byte.isQuote b || Byte.isWord b ||
      ['.', '$', '@', '(', ')'].any (·.toUInt8 == b))

/-- Every kind of announcement. -/
def Lead.all : List Lead :=
  [operator, sign, digit, dot, quote, root, openParen, closeParen, word, symbol]

theorem Lead.mem_all (lead : Lead) : lead ∈ all := by cases lead <;> decide

/-- A byte announces exactly one kind of lexeme. -/
theorem Lead.filter_describes (b : UInt8) : all.filter (·.describes b) = [Lead.ofByte b] := by
  unfold ofByte
  split
  next hsign => rcases Byte.eq_of_isSign hsign with rfl | rfl <;> rfl
  next hsign =>
  split
  next hoperator =>
    have h : Byte.isSign b || all.filter (·.describes b) = [.operator] :=
      Byte.of_isOperator (p := fun b => Byte.isSign b || all.filter (·.describes b) = [.operator])
        hoperator (by decide)
    simpa [hsign] using h
  next hoperator =>
  split
  next hdigit =>
    have h : ∀ b : UInt8, Byte.isDigit b → all.filter (·.describes b) = [.digit] := by
      decide +kernel
    exact h b hdigit
  next hdigit =>
  split
  next hquote => rcases Byte.eq_of_isQuote hquote with rfl | rfl <;> rfl
  next hquote =>
  split
  case h_6 hdot hdollar hat hopen hclose =>
    have hdot := Byte.ne_of_ofUInt8_ne rfl hdot
    have hdollar := Byte.ne_of_ofUInt8_ne rfl hdollar
    have hat := Byte.ne_of_ofUInt8_ne rfl hat
    have hopen := Byte.ne_of_ofUInt8_ne rfl hopen
    have hclose := Byte.ne_of_ofUInt8_ne rfl hclose
    by_cases hword : Byte.isWord b <;>
      simp [all, describes, hsign, hoperator, hdigit, hquote, hword, hdot, hdollar, hat, hopen,
        hclose, hdot.symm, hdollar.symm, hat.symm, hopen.symm, hclose.symm]
  all_goals next h =>
    rw [Byte.eq_of_ofUInt8 h]
    rfl

/-- A byte announces the kind of lexeme it is described by. -/
theorem Lead.ofByte_eq_iff (lead : Lead) (b : UInt8) :
    Lead.ofByte b = lead ↔ lead.describes b := by
  have h : lead ∈ all.filter (·.describes b) ↔ lead.describes b := by
    simp [Lead.mem_all]
  rw [← h, Lead.filter_describes, List.mem_singleton, eq_comm]

/-- The kinds of lexemes that an announcement allows. -/
def Lead.allows : Lead → Lexeme → Bool
  | operator, .operator _ => true
  | sign, .operator _ => true
  | sign, .number _ => true
  | digit, .number _ => true
  | dot, .dot => true
  | quote, .quoted _ => true
  | root, .reference _ => true
  | openParen, .openParen => true
  | closeParen, .closeParen => true
  | word, .word _ _ => true
  | symbol, .symbol _ _ => true
  | _, _ => false

/-! ### The classes by what their bytes announce -/

theorem Lead.describes_eq (lead : Lead) (b : UInt8) :
    lead.describes b = (Lead.ofByte b == lead) := by
  rw [Bool.eq_iff_iff, beq_iff_eq, Lead.ofByte_eq_iff]

namespace Byte

theorem isSign_eq (b : UInt8) : isSign b = (Lead.ofByte b == .sign) := Lead.describes_eq .sign b

theorem isOperator_eq (b : UInt8) :
    isOperator b = (Lead.ofByte b == .operator || Lead.ofByte b == .sign) := by
  rw [← Lead.describes_eq .operator, ← Lead.describes_eq .sign, Lead.describes, Lead.describes]
  cases hsign : isSign b with
  | true => simp [isOperator_of_isSign hsign]
  | false => simp

theorem isDigit_eq (b : UInt8) : isDigit b = (Lead.ofByte b == .digit) :=
  Lead.describes_eq .digit b

theorem isQuote_eq (b : UInt8) : isQuote b = (Lead.ofByte b == .quote) :=
  Lead.describes_eq .quote b

theorem beq_dot (b : UInt8) : (b == '.'.toUInt8) = (Lead.ofByte b == .dot) :=
  Lead.describes_eq .dot b

theorem beq_root (b : UInt8) :
    (b == '$'.toUInt8 || b == '@'.toUInt8) = (Lead.ofByte b == .root) :=
  Lead.describes_eq .root b

theorem beq_openParen (b : UInt8) : (b == '('.toUInt8) = (Lead.ofByte b == .openParen) :=
  Lead.describes_eq .openParen b

theorem beq_closeParen (b : UInt8) : (b == ')'.toUInt8) = (Lead.ofByte b == .closeParen) :=
  Lead.describes_eq .closeParen b

/-- A word byte begins a word or a number. -/
theorem isWord_eq (b : UInt8) :
    isWord b = (Lead.ofByte b == .word || Lead.ofByte b == .digit) := by
  have hdigit : isDigit b → isWord b := fun h => by simp [isWord, isAlphanumeric, h]
  rw [← Lead.describes_eq .word, ← Lead.describes_eq .digit, Lead.describes, Lead.describes]
  cases h : isDigit b with
  | true => simp [hdigit h]
  | false => simp

end Byte

namespace Lead

variable {b : UInt8}

theorem eq_dot (hb : ofByte b = dot) : b = '.'.toUInt8 := by simpa [hb] using Byte.beq_dot b

theorem eq_root (hb : ofByte b = root) : b = '$'.toUInt8 ∨ b = '@'.toUInt8 := by
  simpa [hb] using Byte.beq_root b

theorem eq_openParen (hb : ofByte b = openParen) : b = '('.toUInt8 := by
  simpa [hb] using Byte.beq_openParen b

theorem eq_closeParen (hb : ofByte b = closeParen) : b = ')'.toUInt8 := by
  simpa [hb] using Byte.beq_closeParen b

theorem isOperator (hb : ofByte b = operator ∨ ofByte b = sign) : Byte.isOperator b := by
  simpa [Byte.isOperator_eq] using hb

theorem isWord (hb : ofByte b = word) : Byte.isWord b := by simp [Byte.isWord_eq, hb]

end Lead

namespace Lexeme

/-- How a lexeme can be read where it begins with the byte `b`: the lexeme, and
what it leaves of the bytes. -/
inductive IsRead (afterOperand : Bool) (b : UInt8) (rest : List UInt8) :
    Lexeme → List UInt8 → Prop
  /-- An operator byte, but a sign only behind an operand. -/
  | operator (hb : Lead.ofByte b = .operator ∨ Lead.ofByte b = .sign ∧ afterOperand = true) :
    IsRead afterOperand b rest (.operator (Mark.read b rest).1) (Mark.read b rest).2
  /-- A digit, or a sign where no operand has ended. -/
  | number {last : Literal.State} {c : Cursor}
    (hb : Lead.ofByte b = .digit ∨ Lead.ofByte b = .sign ∧ afterOperand = false)
    (hc : (Cursor.ofBytes (b :: rest)).readNumber none = .ok last c) :
    IsRead afterOperand b rest (.number c.passed.reverse) c.rest
  /-- A point. -/
  | dot (hb : Lead.ofByte b = .dot) : IsRead afterOperand b rest .dot rest
  /-- A quote with the string it opens. -/
  | quoted {c : Cursor} (hb : Lead.ofByte b = .quote)
    (hc : (Cursor.ofBytes (b :: rest)).readString b none = .ok () c) :
    IsRead afterOperand b rest (.quoted c.passed.reverse) c.rest
  /-- A path reference from its first byte on. -/
  | reference {c : Cursor} (hb : Lead.ofByte b = .root)
    (hc : (Cursor.ofBytes (b :: rest)).readReference = .ok () c) :
    IsRead afterOperand b rest (.reference c.passed.reverse) c.rest
  /-- An opening parenthesis. -/
  | openParen (hb : Lead.ofByte b = .openParen) : IsRead afterOperand b rest .openParen rest
  /-- A closing parenthesis. -/
  | closeParen (hb : Lead.ofByte b = .closeParen) : IsRead afterOperand b rest .closeParen rest
  /-- As many word bytes as there are. -/
  | word (hb : Lead.ofByte b = .word) :
    IsRead afterOperand b rest
      (.word (b :: rest.takeWhile Byte.isWord)
        ((rest.dropWhile Byte.isWord).head? == some '('.toUInt8))
      (rest.dropWhile Byte.isWord)
  /-- A single character. -/
  | symbol (hb : Lead.ofByte b = .symbol) :
    IsRead afterOperand b rest (.symbol b (rest.takeWhile Utf8.isContinuation))
      (rest.dropWhile Utf8.isContinuation)

theorem ofOutcome_eq_ok_iff {α : Type} {kind : List UInt8 → Lexeme} {outcome : Cursor.Outcome α}
    {l : Lexeme} {after : List UInt8} :
    ofOutcome kind outcome = .ok (l, after) ↔
      ∃ a c, outcome = .ok a c ∧ l = kind c.passed.reverse ∧ after = c.rest := by
  cases outcome with
  | ok a c =>
    constructor
    · intro h
      cases h
      exact ⟨a, c, rfl, rfl, rfl⟩
    · rintro ⟨a', c', h, rfl, rfl⟩
      cases h
      rfl
  | error fault c => simp [ofOutcome]

/-- The reader reads what `IsRead` allows, and nothing else. -/
theorem read_eq_ok_iff {afterOperand : Bool} {b : UInt8} {rest after : List UInt8} {l : Lexeme} :
    read afterOperand b rest = .ok (l, after) ↔ IsRead afterOperand b rest l after := by
  constructor
  · intro h
    unfold read at h
    split at h
    next hb => cases h; exact .operator (.inl hb)
    next hb =>
      split at h
      next hafter => cases h; exact .operator (.inr ⟨hb, hafter⟩)
      next hafter =>
        obtain ⟨last, c, hc, rfl, rfl⟩ := ofOutcome_eq_ok_iff.mp h
        exact .number (.inr ⟨hb, by simpa using hafter⟩) hc
    next hb =>
      obtain ⟨last, c, hc, rfl, rfl⟩ := ofOutcome_eq_ok_iff.mp h
      exact .number (.inl hb) hc
    next hb => cases h; exact .dot hb
    next hb =>
      obtain ⟨_, c, hc, rfl, rfl⟩ := ofOutcome_eq_ok_iff.mp h
      exact .quoted hb hc
    next hb =>
      obtain ⟨_, c, hc, rfl, rfl⟩ := ofOutcome_eq_ok_iff.mp h
      exact .reference hb hc
    next hb => cases h; exact .openParen hb
    next hb => cases h; exact .closeParen hb
    next hb => cases h; exact .word hb
    next hb => cases h; exact .symbol hb
  · intro h
    unfold read
    cases h with
    | operator hb =>
      rcases hb with hb | ⟨hb, rfl⟩ <;> simp [hb, readOperator]
    | number hb hc =>
      rcases hb with hb | ⟨hb, rfl⟩ <;> simp [hb, readNumber, hc, ofOutcome]
    | dot hb => simp [hb]
    | quoted hb hc => simp [hb, hc, ofOutcome]
    | reference hb hc => simp [hb, hc, ofOutcome]
    | openParen hb => simp [hb]
    | closeParen hb => simp [hb]
    | word hb => simp [hb, readWord]
    | symbol hb => simp [hb, readSymbol]

/-- A lexeme is of a kind that its first byte announces. -/
theorem allows_of_isRead {afterOperand : Bool} {b : UInt8} {rest after : List UInt8} {l : Lexeme}
    (h : IsRead afterOperand b rest l after) : (Lead.ofByte b).allows l := by
  cases h with
  | operator hb | number hb =>
    rcases hb with hb | ⟨hb, -⟩
    · rw [hb]
      rfl
    · rw [hb]
      rfl
  | dot hb | quoted hb | reference hb | openParen hb | closeParen hb | word hb | symbol hb =>
    rw [hb]
    rfl

/-- The text of a word is its stretch in small letters. -/
theorem wordText_bytes (s : String) : wordText (Utf8.bytes s) = s.toLower := by
  rw [wordText, ← Utf8.bytes_toLower, Utf8.text_bytes]

/-! ### A lexeme takes its own bytes -/

theorem ofBytes?_eq_some {bs : List UInt8} {op : Operator} (h : Operator.ofBytes? bs = some op) :
    op.bytes = bs := by
  simpa using List.find?_some h

theorem bytes_ofByte {b : UInt8} (hb : Byte.isOperator b) : (Mark.ofByte b).bytes = [b] := by
  simpa using Byte.of_isOperator (p := fun b => (Mark.ofByte b).bytes = [b]) hb (by decide)

/-- A mark that is read is written with the bytes it took. -/
theorem bytes_read_append {b : UInt8} (rest : List UInt8) (hb : Byte.isOperator b) :
    (Mark.read b rest).1.bytes ++ (Mark.read b rest).2 = b :: rest := by
  have single := bytes_ofByte hb
  unfold Mark.read
  split
  · simp [single]
  · split
    · next b' more op hop =>
      rw [Mark.bytes, ofBytes?_eq_some hop]
      rfl
    · simp [single]

theorem bytes_append_of_isRead {afterOperand : Bool} {b : UInt8} {rest after : List UInt8}
    {l : Lexeme} (h : IsRead afterOperand b rest l after) : l.bytes ++ after = b :: rest := by
  -- a recogniser leaves its input as it is, so what it passed and what it left make it up
  cases h with
  | operator hb =>
    exact bytes_read_append rest (Lead.isOperator (hb.imp_right And.left))
  | number hb hc =>
    have := Cursor.input_readNumber none (Cursor.ofBytes (b :: rest))
    rwa [hc] at this
  | quoted hb hc =>
    have := Cursor.input_readString b none (Cursor.ofBytes (b :: rest))
    rwa [hc] at this
  | reference hb hc =>
    have := Cursor.input_readReference (Cursor.ofBytes (b :: rest))
    rwa [hc] at this
  | dot hb => rw [Lead.eq_dot hb]; rfl
  | openParen hb => rw [Lead.eq_openParen hb]; rfl
  | closeParen hb => rw [Lead.eq_closeParen hb]; rfl
  | word hb => simp [bytes, List.takeWhile_append_dropWhile]
  | symbol hb => simp [bytes, List.takeWhile_append_dropWhile]

/-- A lexeme is written with at least the byte it begins with. -/
theorem bytes_eq_cons_of_isRead {afterOperand : Bool} {b : UInt8} {rest after : List UInt8}
    {l : Lexeme} (h : IsRead afterOperand b rest l after) : ∃ more, l.bytes = b :: more := by
  have happend := bytes_append_of_isRead h
  have hle := length_read_le (read_eq_ok_iff.mpr h)
  cases hl : l.bytes with
  | nil =>
    rw [hl, List.nil_append] at happend
    rw [happend, List.length_cons] at hle
    omega
  | cons a more =>
    rw [hl, List.cons_append] at happend
    exact ⟨more, by rw [(List.cons.inj happend).1]⟩

end Lexeme

end PathFormula
