import PathFormula.Postfix.Compiler
import PathFormula.Proofs.InPlace
import PathFormula.Proofs.Reads
import PathFormula.TokenList.Lexer

/-!
# Two drivers and one reading

The lexer and the compiler each go over a formula with a cursor, look at the next byte, and
note by themselves whether an operand has ended.  They do not decide alike: what is a token
to the one, a point or an operator without an operand in front of it, is a fault to the
other.  Still they stop in front of the same bytes.  Both are related here to the reading of
the formula, step by step: where a lexeme is read, the lexer has its text and stands behind
it, and the compiler does to its stack what a builder does that takes the lexeme; where none
is read, both report the same fault.

The lexer reads a parenthesis as a character, with all bytes that would continue it.  There
are none in the bytes of a text.

## Main definitions

* `Lexer.ofAnswer`, `Compiler.ofAnswer` — what the drivers make of a lexeme.
* `TokenList.ofReading` — the tokens of a reading.

## Main results

* `Lexer.token_eq`, `Compiler.step_eq` — one step.
* `Lexer.tokensFrom_of_reads`, `Compiler.run_of_reads` — the steps through pieces that are
  read.
* `TokenList.ofFormula_eq_ofReading`, `Postfix.ofFormula_eq_ofReading` — **both drivers
  follow the reading.**
* `Postfix.tokens_of_ofFormula` — so the lexer takes whatever the compiler takes.
-/

namespace PathFormula

variable {v : Vocabulary} {b : UInt8} {passed rest bytes left gap : List UInt8}
  {afterOperand start last : Bool} {ps : List Piece} {fault : Fault}

/-! ### What the cursor passes -/

namespace Cursor

theorem textFrom_append (p passed rest : List UInt8) :
    textFrom passed.length ⟨p ++ passed, rest⟩ = Utf8.text p.reverse := by
  simp [textFrom, position]

/-- In front of a lexeme the whole gap is passed. -/
theorem skipSpace_of_isGap (hgap : Byte.IsGap gap) (hb : Byte.isSpace b = false) :
    skipSpace ⟨passed, gap ++ b :: rest⟩ = ⟨gap.reverse ++ passed, b :: rest⟩ := by
  rw [skipSpace, passWhile, (Reading.span_isSpace hgap hb).1, (Reading.span_isSpace hgap hb).2]

/-- Where only space is left it is passed to the end. -/
theorem current_skipSpace_of_isGap (hgap : Byte.IsGap gap) :
    (skipSpace ⟨passed, gap⟩).current = none := by
  have hdrop : gap.dropWhile Byte.isSpace = [] := by simpa [Byte.IsGap] using hgap
  rw [skipSpace, passWhile, hdrop]
  rfl

/-- An operator is read in place. -/
theorem readMark_eq (hb : Byte.isOperator b) (passed rest : List UInt8) :
    readMark b ⟨passed, b :: rest⟩ = ((Mark.read b rest).1,
      ⟨(Mark.read b rest).1.bytes.reverse ++ passed, (Mark.read b rest).2⟩) := by
  have hsingle := Lexeme.bytes_ofByte hb
  cases rest with
  | nil => simp [readMark, peek, Mark.read, hsingle, forward, forwardFrom]
  | cons b' more =>
    cases hop : Operator.ofBytes? [b, b'] with
    | none => simp [readMark, peek, Mark.read, hop, hsingle, forward, forwardFrom]
    | some op =>
      simp [readMark, peek, Mark.read, hop, Mark.bytes, Lexeme.ofBytes?_eq_some hop, forward,
        forwardFrom]

/-- A character is read in place. -/
theorem readSymbol_eq (passed rest : List UInt8) : readSymbol ⟨passed, b :: rest⟩ =
    (Utf8.text (b :: rest.takeWhile Utf8.isContinuation),
      ⟨(b :: rest.takeWhile Utf8.isContinuation).reverse ++ passed,
        rest.dropWhile Utf8.isContinuation⟩) := by
  have hcursor : (forward 1 ⟨passed, b :: rest⟩).passWhile Utf8.isContinuation =
      ⟨(b :: rest.takeWhile Utf8.isContinuation).reverse ++ passed,
        rest.dropWhile Utf8.isContinuation⟩ := by
    simp [forward, forwardFrom, passWhile]
  rw [readSymbol, hcursor, position, textFrom_append, List.reverse_reverse]

/-- An ASCII byte that nothing continues is a character by itself. -/
theorem readSymbol_of_isSeparated (hseparated : Utf8.IsSeparated (b :: rest)) (hb : b < 0x80)
    (passed : List UInt8) :
    readSymbol ⟨passed, b :: rest⟩ = (Utf8.text [b], ⟨b :: passed, rest⟩) := by
  have hspan : rest.takeWhile Utf8.isContinuation = [] ∧
      rest.dropWhile Utf8.isContinuation = rest := by
    cases rest with
    | nil => exact ⟨rfl, rfl⟩
    | cons b' more => simp [hseparated [] b b' more rfl hb]
  rw [readSymbol_eq, hspan.1, hspan.2]
  rfl

/-- A word is read in place, and made small as its bytes are. -/
theorem readWord_of_isWord (hb : Byte.isWord b) (passed rest : List UInt8) :
    readWord ⟨passed, b :: rest⟩ =
      (⟨Lexeme.wordText (b :: rest.takeWhile Byte.isWord),
          (rest.dropWhile Byte.isWord).head? == some '('.toUInt8, passed.length⟩,
        ⟨(b :: rest.takeWhile Byte.isWord).reverse ++ passed, rest.dropWhile Byte.isWord⟩) := by
  have hascii : ∀ x ∈ (b :: rest).takeWhile Byte.isWord, x < 0x80 := fun x hx =>
    Byte.lt_of_isWord (List.mem_takeWhile_imp hx)
  rw [List.takeWhile_cons_of_pos hb] at hascii
  have htext : (Utf8.text (b :: rest.takeWhile Byte.isWord)).toLower =
      Lexeme.wordText (b :: rest.takeWhile Byte.isWord) := by
    rw [← Lexeme.wordText_bytes, Utf8.text, Utf8.decode_ascii hascii, Utf8.bytes_ofList,
      Utf8.encode_map_ofUInt8 hascii]
  rw [readWord, passWhile, List.takeWhile_cons_of_pos hb, List.dropWhile_cons_of_pos hb]
  simp only [position, textFrom_append, List.reverse_reverse, htext, current]

/-- Where no word begins, an empty one is read. -/
theorem readWord_of_not_isWord (hb : Byte.isWord b = false) (passed rest : List UInt8) :
    readWord ⟨passed, b :: rest⟩ =
      (⟨"", b == '('.toUInt8, passed.length⟩, ⟨passed, b :: rest⟩) := by
  have hb : ¬ Byte.isWord b := by simp [hb]
  have hempty : "".toLower = "" := by decide +kernel
  rw [readWord, passWhile, List.takeWhile_cons_of_neg hb, List.dropWhile_cons_of_neg hb]
  simp [textFrom, position, current, hempty]

/-- A word that is read is not empty. -/
theorem wordText_ne_empty (hb : Byte.isWord b) (rest : List UInt8) :
    Lexeme.wordText (b :: rest.takeWhile Byte.isWord) ≠ "" := by
  have hascii : ∀ x ∈ ((b :: rest).takeWhile Byte.isWord).map Byte.lower, x < 0x80 := by
    intro x hx
    obtain ⟨y, hy, rfl⟩ := List.mem_map.mp hx
    exact (Byte.ofUInt8_lower (Byte.lt_of_isWord (List.mem_takeWhile_imp hy))).1
  rw [List.takeWhile_cons_of_pos hb] at hascii
  rw [Lexeme.wordText, Utf8.text, Utf8.decode_ascii hascii, Ne, ← String.toList_inj,
    String.toList_ofList]
  exact List.cons_ne_nil _ _

/-- No number begins with a point. -/
theorem readNumber_dot (passed rest : List UInt8) :
    readNumber none ⟨passed, '.'.toUInt8 :: rest⟩ =
      .error (.invalidSymbol passed.length (some '.'.toUInt8)) ⟨passed, '.'.toUInt8 :: rest⟩ :=
  rfl

end Cursor

/-! ### The lexer -/

namespace Lexer

/-- What a lexer makes of the lexeme that is read behind the bytes `passed`. -/
def ofAnswer (passed : List UInt8) : Lexeme.Answer → Except Fault (String × Lexer)
  | .ok (l, after) => .ok (l.text, ⟨⟨l.bytes.reverse ++ passed, after⟩, l.endsOperand⟩)
  | .error fault => .error (fault.shift passed.length)

/-- What a recogniser passes over is an operand, as the reader has it. -/
theorem passed_behind {α : Type} {kind : List UInt8 → Lexeme}
    (hkind : kind = .number ∨ kind = .quoted ∨ kind = .reference) (passed rest : List UInt8)
    (outcome : Cursor.Outcome α) : Lexer.passed ⟨passed, rest⟩ (outcome.behind passed) =
      ofAnswer passed (Lexeme.ofOutcome kind outcome) := by
  cases outcome with
  | ok a c =>
    have htext := Cursor.textFrom_append c.passed passed c.rest
    rcases hkind with rfl | rfl | rfl <;>
      simp [Lexer.passed, Cursor.Outcome.behind, Cursor.behind, Cursor.position, htext,
        Lexeme.ofOutcome, ofAnswer, Lexeme.text, Lexeme.bytes, Lexeme.endsOperand]
  | error fault c => rfl

/-- A number is taken as the reader has it, and there is one unless a point stands there. -/
theorem number_eq (hb : Lead.ofByte b ≠ .dot) (passed rest : List UInt8) :
    number b ⟨passed, b :: rest⟩ = ofAnswer passed (Lexeme.readNumber b rest) := by
  have hdot : ¬ (b == '.'.toUInt8) := by simpa [Byte.beq_dot] using hb
  rw [Lexeme.readNumber, ← passed_behind (.inl rfl) passed (b :: rest),
    ← Cursor.readNumber_behind, number]
  cases Cursor.readNumber none ⟨passed, b :: rest⟩ with
  | ok last c => rfl
  | error fault c => exact if_neg hdot

/-- A word is taken as the reader has it, and a character where there is no word. -/
theorem wordOrSymbol_eq (passed rest : List UInt8) :
    .ok (wordOrSymbol b ⟨passed, b :: rest⟩) = ofAnswer passed
      (if Byte.isWord b then Lexeme.readWord b rest else Lexeme.readSymbol b rest) := by
  cases hb : Byte.isWord b with
  | true =>
    simp only [wordOrSymbol, Cursor.readWord_of_isWord hb,
      if_neg (Cursor.wordText_ne_empty hb rest)]
    rfl
  | false =>
    simp only [wordOrSymbol, Cursor.readWord_of_not_isWord hb, Cursor.readSymbol_eq, if_true]
    rfl

/-- What the lexer takes at the byte `b` is the lexeme that is read there. -/
theorem token_eq (hseparated : Utf8.IsSeparated (b :: rest)) :
    token ⟨⟨passed, b :: rest⟩, afterOperand⟩ b =
      ofAnswer passed (Lexeme.read afterOperand b rest) := by
  have hword := wordOrSymbol_eq (b := b) passed rest
  simp only [token, Lexeme.read, Byte.isOperator_eq, Byte.isSign_eq, Byte.isDigit_eq,
    Byte.isQuote_eq, Byte.beq_dot, Byte.beq_root, Byte.beq_openParen, Byte.beq_closeParen]
  cases hb : Lead.ofByte b with
  | operator =>
    simp [Cursor.readMark_eq (Lead.isOperator (.inl hb)), ofAnswer, Lexeme.readOperator, Lexeme.text,
      Lexeme.bytes, Lexeme.endsOperand]
  | sign =>
    cases afterOperand with
    | true =>
      simp [Cursor.readMark_eq (Lead.isOperator (.inr hb)), ofAnswer, Lexeme.readOperator, Lexeme.text,
        Lexeme.bytes, Lexeme.endsOperand]
    | false => exact number_eq (by simp [hb]) passed rest
  | digit => exact number_eq (by simp [hb]) passed rest
  | dot =>
    obtain rfl := Lead.eq_dot hb
    rfl
  | quote =>
    have hquote : Byte.isQuote b := by simp [Byte.isQuote_eq, hb]
    rw [Cursor.readString_behind hquote]
    exact passed_behind (.inr (.inl rfl)) passed _ _
  | root =>
    rw [Cursor.readReference_behind (Lead.eq_root hb)]
    exact passed_behind (.inr (.inr rfl)) passed _ _
  | openParen =>
    obtain rfl := Lead.eq_openParen hb
    have htext : Utf8.text ['('.toUInt8] = "(" := Utf8.text_bytes "("
    simp [Cursor.readSymbol_of_isSeparated hseparated (by decide), ofAnswer, Lexeme.text,
      Lexeme.bytes, Lexeme.endsOperand, htext]
  | closeParen =>
    obtain rfl := Lead.eq_closeParen hb
    have htext : Utf8.text [')'.toUInt8] = ")" := Utf8.text_bytes ")"
    simp [Cursor.readSymbol_of_isSeparated hseparated (by decide), ofAnswer, Lexeme.text,
      Lexeme.bytes, Lexeme.endsOperand, htext]
  | word =>
    rw [if_pos (Lead.isWord hb)] at hword
    exact hword
  | symbol =>
    rw [if_neg (by simp [Byte.isWord_eq, hb])] at hword
    exact hword

/-- The next token stands behind the gap. -/
theorem next?_of_isGap (hgap : Byte.IsGap gap) (hb : Byte.isSpace b = false) :
    next? ⟨⟨passed, gap ++ b :: rest⟩, afterOperand⟩ =
      (token ⟨⟨gap.reverse ++ passed, b :: rest⟩, afterOperand⟩ b).map some := by
  rw [next?, Cursor.skipSpace_of_isGap hgap hb]
  rfl

/-- The tokens of pieces that are read are their texts, and the lexer goes on behind them. -/
theorem tokensFrom_of_reads (h : Reads start bytes ps last left)
    (hseparated : Utf8.IsSeparated bytes) (taken : List String) :
    tokensFrom taken ⟨⟨passed, bytes⟩, start⟩ =
      tokensFrom ((ps.map fun p => p.lexeme.text).reverse ++ taken)
        ⟨⟨(Piece.flatten ps).reverse ++ passed, left⟩, last⟩ := by
  induction h generalizing passed taken with
  | refl => rfl
  | @piece afterOperand last gap rest after left b l ps hgap hb hl hps ih =>
    have hrest : Utf8.IsSeparated (b :: rest) := hseparated.of_append
    have hafter : Utf8.IsSeparated after := by
      rw [← Lexeme.bytes_append_of_isRead hl] at hrest
      exact hrest.of_append
    rw [tokensFrom, next?_of_isGap hgap hb, token_eq hrest, Lexeme.read_eq_ok_iff.mpr hl]
    simp [ofAnswer, Except.map, ih hafter, Piece.bytes]

/-- Where nothing more is read the lexer ends as the reading does. -/
theorem tokensFrom_of_stops {ending : Except Fault (List UInt8)}
    (h : Stops afterOperand passed.length left ending) (hseparated : Utf8.IsSeparated left)
    (taken : List String) : tokensFrom taken ⟨⟨passed, left⟩, afterOperand⟩ =
      ending.map fun _ => ⟨taken.reverse⟩ := by
  cases h with
  | space hgap =>
    rw [tokensFrom, next?, Cursor.current_skipSpace_of_isGap hgap]
    rfl
  | fault hgap hb hl =>
    rw [tokensFrom, next?_of_isGap hgap hb, token_eq hseparated.of_append, hl]
    simp [ofAnswer, Except.map, Nat.add_comm]

end Lexer

namespace TokenList

/-- The tokens of a reading. -/
def ofReading (r : Reading) : Except Fault TokenList :=
  r.ending.map fun _ => ⟨r.lexemes.map Lexeme.text⟩

/-- **The tokens of a formula are those of its reading.** -/
theorem ofFormula_eq_ofReading (s : String) : ofFormula s = ofReading (.ofText s) := by
  obtain ⟨last, left, hreads, hstop⟩ := Reading.exists_reads_ofText s
  have hseparated := Utf8.isSeparated_bytes s
  have hleft : Utf8.IsSeparated left := by
    rw [← hreads.bytes_append] at hseparated
    exact hseparated.of_append
  rw [ofFormula, Lexer.start, Cursor.ofBytes, Lexer.tokensFrom_of_reads hreads hseparated,
    Lexer.tokensFrom_of_stops (by simpa using hstop) hleft]
  simp [ofReading, Reading.lexemes, Function.comp_def]

/-- A formula has tokens if it can be read, and they are the texts of its lexemes. -/
theorem ofFormula_eq_ok_iff {s : String} {ts : TokenList} :
    ofFormula s = .ok ts ↔ ∃ gap, (Reading.ofText s).ending = .ok gap ∧
      ts = ⟨(Reading.ofText s).lexemes.map Lexeme.text⟩ := by
  rw [ofFormula_eq_ofReading, ofReading]
  cases (Reading.ofText s).ending <;> simp [Except.map, eq_comm]

end TokenList

/-! ### The compiler -/

namespace Builder

/-- What a builder does with a lexeme does not depend on how much it has taken. -/
theorem take_offset (v : Vocabulary) (b : Builder) (offset offset' : Nat) (l : Lexeme) :
    ({ b with offset } : Builder).take v offset' l =
      (b.take v offset' l).map fun after => { after with offset } := by
  cases l with
  | operator mark =>
    cases hb : b.afterOperand with
    | true =>
      simp only [take, hb, if_true, pushOperator]
      split <;> rfl
    | false => simp [take, hb, Except.map]
  | closeParen =>
    simp only [take, closeParen]
    split <;> rfl
  | word bytes call =>
    cases call <;> simp only [take] <;> split <;> rfl
  | number | quoted | reference | openParen | dot | symbol => rfl

end Builder

namespace Compiler

/-- What a compiler makes of the lexeme that is read at its cursor. -/
def ofAnswer (v : Vocabulary) (c : Compiler) : Lexeme.Answer → Except Fault Compiler
  | .ok (l, after) => (c.builder.take v c.cursor.position l).map
      (goOn ⟨l.bytes.reverse ++ c.cursor.passed, after⟩ l.endsOperand)
  | .error fault => .error (fault.shift c.cursor.position)

variable {stack : List Pending} {output : List Entry}

/-- What a recogniser passes over is an operand, as the reader has it. -/
theorem operand_behind {α : Type} {kind : List UInt8 → Lexeme}
    (hkind : kind = .number ∨ kind = .quoted ∨ kind = .reference) (outcome : Cursor.Outcome α) :
    operand ⟨⟨passed, rest⟩, stack, output, afterOperand⟩ (outcome.behind passed) =
      ofAnswer v ⟨⟨passed, rest⟩, stack, output, afterOperand⟩ (Lexeme.ofOutcome kind outcome) := by
  cases outcome with
  | ok a c =>
    have htext := Cursor.textFrom_append c.passed passed c.rest
    rcases hkind with rfl | rfl | rfl <;>
      simp [operand, Cursor.Outcome.behind, Cursor.behind, Cursor.position, htext,
        Lexeme.ofOutcome, ofAnswer, Builder.take, Lexeme.bytes, Lexeme.endsOperand, Except.map]
  | error fault c => rfl

/-- A word is looked up as the builder looks it up, and where there is none the byte may not
stand. -/
theorem word_eq (v : Vocabulary) (passed rest : List UInt8) (stack : List Pending)
    (output : List Entry) (afterOperand : Bool) :
    word v ⟨⟨passed, b :: rest⟩, stack, output, afterOperand⟩ =
      ofAnswer v ⟨⟨passed, b :: rest⟩, stack, output, afterOperand⟩
        (if Byte.isWord b then Lexeme.readWord b rest else Lexeme.readSymbol b rest) := by
  cases hb : Byte.isWord b with
  | true =>
    simp only [word, Cursor.readWord_of_isWord hb, if_neg (Cursor.wordText_ne_empty hb rest),
      if_true, Lexeme.readWord, ofAnswer]
    cases (rest.dropWhile Byte.isWord).head? == some '('.toUInt8 with
    | true =>
      simp only [Builder.take, if_true]
      split <;> rfl
    | false =>
      simp only [Builder.take, Bool.false_eq_true, if_false]
      split <;> rfl
  | false =>
    simp only [word, Cursor.readWord_of_not_isWord hb, if_true]
    rfl

/-- An operator goes on the stack behind an operand, and may stand nowhere else. -/
theorem operator_eq (hb : Lead.ofByte b = .operator ∨ Lead.ofByte b = .sign ∧ afterOperand)
    (passed rest : List UInt8) (stack : List Pending) (output : List Entry) :
    step v ⟨⟨passed, b :: rest⟩, stack, output, afterOperand⟩ b =
      ofAnswer v ⟨⟨passed, b :: rest⟩, stack, output, afterOperand⟩
        (Lexeme.readOperator b rest) := by
  have hread : Lexeme.IsRead afterOperand b rest (.operator (Mark.read b rest).1)
      (Mark.read b rest).2 := .operator hb
  obtain ⟨more, hmore⟩ := Lexeme.bytes_eq_cons_of_isRead hread
  have hop : Byte.isOperator b := Lead.isOperator (hb.imp_right And.left)
  have hsign (hafter : afterOperand = false) : Byte.isSign b = false := by
    have hb := hb.resolve_right (by simp [hafter])
    simp [Byte.isSign_eq, hb]
  cases afterOperand with
  | true =>
    simp [step, hop, Cursor.readMark_eq hop, ofAnswer, Lexeme.readOperator, Builder.take, builder,
      Lexeme.bytes, Lexeme.endsOperand]
  | false =>
    rw [Lexeme.bytes] at hmore
    simp [step, hop, hsign rfl, ofAnswer, Lexeme.readOperator, Builder.take, builder, hmore,
      Except.map, Cursor.symbolFault, Cursor.current]

/-- What the compiler makes of the byte `b` is what it makes of the lexeme that is read there. -/
theorem step_eq (passed rest : List UInt8) (stack : List Pending) (output : List Entry) :
    step v ⟨⟨passed, b :: rest⟩, stack, output, afterOperand⟩ b =
      ofAnswer v ⟨⟨passed, b :: rest⟩, stack, output, afterOperand⟩
        (Lexeme.read afterOperand b rest) := by
  by_cases hop : Lead.ofByte b = .operator ∨ Lead.ofByte b = .sign ∧ afterOperand
  · rw [operator_eq hop]
    rcases hop with hb | ⟨hb, rfl⟩ <;> simp [Lexeme.read, hb]
  have hword := word_eq (b := b) v passed rest stack output afterOperand
  simp only [step, Lexeme.read, Byte.isOperator_eq, Byte.isSign_eq, Byte.isDigit_eq,
    Byte.isQuote_eq, Byte.beq_dot, Byte.beq_root, Byte.beq_openParen, Byte.beq_closeParen]
  cases hb : Lead.ofByte b with
  | operator => exact absurd (.inl hb) hop
  | sign =>
    obtain rfl : afterOperand = false := by simpa [hb] using hop
    rw [Cursor.readNumber_behind]
    exact operand_behind (.inl rfl) _
  | digit =>
    rw [Cursor.readNumber_behind]
    exact operand_behind (.inl rfl) _
  | dot =>
    obtain rfl := Lead.eq_dot hb
    rw [Cursor.readNumber_dot]
    rfl
  | quote =>
    have hquote : Byte.isQuote b := by simp [Byte.isQuote_eq, hb]
    rw [Cursor.readString_behind hquote]
    exact operand_behind (.inr (.inl rfl)) _
  | root =>
    rw [Cursor.readReference_behind (Lead.eq_root hb)]
    exact operand_behind (.inr (.inr rfl)) _
  | openParen =>
    obtain rfl := Lead.eq_openParen hb
    rfl
  | closeParen =>
    obtain rfl := Lead.eq_closeParen hb
    rfl
  | word =>
    rw [if_pos (Lead.isWord hb)] at hword
    exact hword
  | symbol =>
    rw [if_neg (by simp [Byte.isWord_eq, hb])] at hword
    exact hword

/-- The next unit stands behind the gap. -/
theorem run_of_isGap (hgap : Byte.IsGap gap) (hb : Byte.isSpace b = false)
    (stack : List Pending) (output : List Entry) :
    run v ⟨⟨passed, gap ++ b :: rest⟩, stack, output, afterOperand⟩ = (step v
      ⟨⟨gap.reverse ++ passed, b :: rest⟩, stack, output, afterOperand⟩ b).bind (run v) := by
  have hskip : Cursor.skipSpace ⟨passed, gap ++ b :: rest⟩ = ⟨gap.reverse ++ passed, b :: rest⟩ :=
    Cursor.skipSpace_of_isGap hgap hb
  rw [run]
  split
  next hnone => simp [hskip, Cursor.current] at hnone
  next b' hb' =>
    obtain rfl : b = b' := by simpa [hskip, Cursor.current] using hb'
    rw [← hskip]
    split
    next after hstep => rw [hstep]; rfl
    next fault hstep => rw [hstep]; rfl

/-- Through pieces that are read the compiler does what a builder does that takes them. -/
theorem run_of_reads (v : Vocabulary) (h : Reads start bytes ps last left)
    (passed : List UInt8) (stack : List Pending) (output : List Entry) :
    run v ⟨⟨passed, bytes⟩, stack, output, start⟩ =
      (Builder.run v ⟨passed.length, stack, output, start⟩ ps).bind fun b =>
        run v (goOn ⟨(Piece.flatten ps).reverse ++ passed, left⟩ last b) := by
  induction h generalizing passed stack output with
  | refl => rfl
  | @piece afterOperand last gap rest after left b l ps hgap hb hl hps ih =>
    have hgapped : (gap.reverse ++ passed).length = passed.length + gap.length := by
      simp [Nat.add_comm]
    have hbehind : passed.length + (Piece.bytes ⟨gap, l⟩).length =
        (l.bytes.reverse ++ (gap.reverse ++ passed)).length := by
      simp only [Piece.bytes, List.length_append, List.length_reverse]
      omega
    have htake := Builder.take_offset v ⟨passed.length, stack, output, afterOperand⟩
      (passed.length + gap.length) (passed.length + gap.length) l
    rw [run_of_isGap hgap hb, step_eq, Lexeme.read_eq_ok_iff.mpr hl, Builder.run, Builder.step]
    simp only [ofAnswer, builder, Cursor.position, hgapped, htake]
    cases Builder.take v ⟨passed.length, stack, output, afterOperand⟩
      (passed.length + gap.length) l with
    | error fault => rfl
    | ok b =>
      simp only [Except.map, Except.bind, goOn, ih, hbehind]
      simp [Piece.bytes]

/-- Where nothing more is read the compiler ends as the reading does. -/
theorem run_of_stops (v : Vocabulary) {ending : Except Fault (List UInt8)}
    (h : Stops afterOperand passed.length left ending) (stack : List Pending)
    (output : List Entry) :
    (run v ⟨⟨passed, left⟩, stack, output, afterOperand⟩).bind finish =
      ending.bind fun _ => Builder.finish ⟨passed.length, stack, output, afterOperand⟩
        (passed.length + left.length) := by
  cases h with
  | space hgap =>
    have hskip : (Cursor.skipSpace ⟨passed, left⟩).current = none :=
      Cursor.current_skipSpace_of_isGap hgap
    rw [run]
    split
    next =>
      have hlength : (Cursor.skipSpace ⟨passed, left⟩).input.length =
          passed.length + left.length := by
        rw [Cursor.input_skipSpace]
        simp [Cursor.input]
      rw [Except.bind, finish, hlength]
      rfl
    next b hb => simp [hskip] at hb
  | fault hgap hb hl =>
    rw [run_of_isGap hgap hb, step_eq, hl]
    simp [ofAnswer, Except.bind, Cursor.position, Nat.add_comm]

end Compiler

namespace Postfix

/-- **The postfix order of a formula is that of its reading.** -/
theorem ofFormula_eq_ofReading (v : Vocabulary) (s : String) :
    ofFormula v s = ofReading v (Utf8.bytes s).length (.ofText s) := by
  obtain ⟨last, left, hreads, hstop⟩ := Reading.exists_reads_ofText s
  have hlength := congrArg List.length hreads.bytes_append
  rw [List.length_append, ← List.length_reverse] at hlength
  rw [← List.length_reverse] at hstop
  have hrun := Compiler.run_of_reads v hreads [] [] []
  have hbind : ofFormula v s = ((Compiler.start (Utf8.bytes s)).run v).bind Compiler.finish := by
    rw [ofFormula]
    cases (Compiler.start (Utf8.bytes s)).run v <;> rfl
  rw [hbind, ofReading, Compiler.start, Cursor.ofBytes, hrun, List.append_nil]
  change ((Builder.start.run v _).bind _).bind _ = _
  cases Builder.start.run v (Reading.ofText s).pieces with
  | error fault => rfl
  | ok b =>
    have hend := Compiler.run_of_stops v hstop b.stack b.output
    rw [Except.bind, Compiler.goOn, hend, hlength]
    cases (Reading.ofText s).ending <;> rfl

/-- A formula has a postfix order if it can be read and its pieces can be ordered. -/
theorem ofFormula_eq_ok_iff {s : String} {p : Postfix} :
    ofFormula v s = .ok p ↔ ∃ b gap, Builder.start.run v (Reading.ofText s).pieces = .ok b ∧
      (Reading.ofText s).ending = .ok gap ∧ b.finish (Utf8.bytes s).length = .ok p := by
  rw [ofFormula_eq_ofReading, ofReading]
  cases Builder.start.run v (Reading.ofText s).pieces with
  | error fault => simp
  | ok b =>
    cases (Reading.ofText s).ending with
    | error fault => simp
    | ok gap => simp

/-- **What the compiler comes to the end of, the lexer does too.** -/
theorem tokens_of_ofFormula {s : String} {p : Postfix} (h : ofFormula v s = .ok p) :
    TokenList.ofFormula s = .ok ⟨(Reading.ofText s).lexemes.map Lexeme.text⟩ := by
  obtain ⟨b, gap, -, hgap, -⟩ := ofFormula_eq_ok_iff.mp h
  exact TokenList.ofFormula_eq_ok_iff.mpr ⟨gap, hgap, rfl⟩

end Postfix

end PathFormula
