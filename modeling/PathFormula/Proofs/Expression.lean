import PathFormula.Proofs.Contexts
import PathFormula.Proofs.Lossless
import PathFormula.Proofs.Stack

/-!
# Expressions and how they are written

Expression trees over the operands a vocabulary allows, their infix text with a
space between tokens, and their postfix order.  The text is read back as the
lexemes of the tree, whatever stands around it.

## Main definitions

* `Operand`, `Expr` — operands and expression trees.
* `Expr.text`, `Expr.postorder` — the two ways to write a tree.
* `Expr.lexemes` — the lexemes of the text.

## Main results

* `Expr.exists_reads` — the text of an expression is read as its lexemes.
-/

namespace PathFormula

/-- The bare words `[a-z_][a-z0-9_]*`. -/
inductive IsName : List UInt8 → Prop
  | intro {b : UInt8} {bs : List UInt8} (hb : Byte.isLower b || b == '_'.toUInt8)
    (hbs : ∀ x ∈ bs, Byte.isLower x || Byte.isDigit x || x == '_'.toUInt8) : IsName (b :: bs)

/-! ### A lexeme in front of other bytes -/

namespace Lexeme

theorem standsBefore_openParen (afterOperand : Bool) (rest : List UInt8) :
    StandsBefore afterOperand .openParen rest :=
  standsBefore_of_endsBefore trivial (mayFollow_of_cons rfl rfl) trivial

theorem standsBefore_closeParen (afterOperand : Bool) (rest : List UInt8) :
    StandsBefore afterOperand .closeParen rest :=
  standsBefore_of_endsBefore trivial (mayFollow_of_cons rfl rfl) trivial

/-- Where no operand has ended, a number is read as a number. -/
theorem standsBefore_number {bs rest : List UInt8} (h : Literal.IsNumber bs)
    (hrest : EndsWord rest) : StandsBefore false (.number bs) rest :=
  standsBefore_of_endsBefore h (fun _ _ _ => rfl) (endsBefore_of_endsWord (by simp) hrest)

theorem standsBefore_quoted {bs : List UInt8} (afterOperand : Bool) (rest : List UInt8)
    (h : Literal.IsQuoted bs) : StandsBefore afterOperand (.quoted bs) rest := by
  refine standsBefore_of_endsBefore h ?_ trivial
  cases h with
  | intro hd hbody =>
    exact mayFollow_of_cons rfl (by rcases Byte.eq_of_isQuote hd with rfl | rfl <;> rfl)

theorem standsBefore_reference {bs rest : List UInt8} (afterOperand : Bool)
    (h : IsReference bs) (hrest : EndsWord rest) :
    StandsBefore afterOperand (.reference bs) rest := by
  refine standsBefore_of_endsBefore h ?_ (endsBefore_of_endsWord (by simp) hrest)
  cases h with
  | intro hb hbs => exact mayFollow_of_cons rfl (by rcases hb with rfl | rfl <;> rfl)

/-- Behind an operand, an operator in front of space is read as itself. -/
theorem standsBefore_operator (op : Operator) {rest : List UInt8} (hrest : EndsWord rest) :
    StandsBefore true (.operator (.operator op)) rest :=
  standsBefore_of_endsBefore trivial (fun _ _ _ => rfl) (endsBefore_of_endsWord (by simp) hrest)

/-! ### Names -/

theorem lead_of_isName : ∀ {b : UInt8}, (Byte.isLower b || b == '_'.toUInt8) →
    Lead.ofByte b = .word ∧ Byte.isSign b = false := by decide +kernel

theorem isWord_of_isName : ∀ {b : UInt8},
    (Byte.isLower b || Byte.isDigit b || b == '_'.toUInt8) → Byte.isWord b := by decide +kernel

/-- The bytes of a name are small already. -/
theorem lower_of_isName : ∀ {b : UInt8},
    (Byte.isLower b || Byte.isDigit b || b == '_'.toUInt8) → Byte.lower b = b := by decide +kernel

/-- A name is read as a word up to the next byte that belongs to no word. -/
theorem standsBefore_word {bs rest : List UInt8} {call : Bool} (afterOperand : Bool)
    (h : IsName bs) (hrest : (word bs call).EndsBefore rest.head?) :
    StandsBefore afterOperand (.word bs call) rest := by
  cases h with
  | intro hb hmore =>
    have hlead := lead_of_isName hb
    exact standsBefore_of_endsBefore
      ⟨_, _, rfl, hlead.1, fun x hx => isWord_of_isName (hmore x hx)⟩
      (mayFollow_of_cons rfl hlead.2) hrest

/-- In front of an opening parenthesis, a name is called. -/
theorem standsBefore_call {bs : List UInt8} (afterOperand : Bool) (h : IsName bs)
    (rest : List UInt8) : StandsBefore afterOperand (.word bs true) ('('.toUInt8 :: rest) := by
  refine standsBefore_word afterOperand h ⟨?_, rfl⟩
  intro b hb
  cases hb
  rfl

/-- Making the letters of a name small leaves it as it is. -/
theorem wordText_of_isName {s : String} (h : IsName (Utf8.bytes s)) :
    wordText (Utf8.bytes s) = s := by
  have hname {bs : List UInt8} (h : IsName bs) : bs.map Byte.lower = bs := by
    cases h with
    | @intro b bs hb hbs =>
      have hb : Byte.lower b = b := lower_of_isName (by cases hl : Byte.isLower b <;> simp_all)
      have hbs : bs.map Byte.lower = bs.map id :=
        List.map_congr_left fun x hx => lower_of_isName (hbs x hx)
      rw [List.map_cons, hb, hbs, List.map_id]
  rw [wordText, hname h, Utf8.text_bytes]

end Lexeme

/-! ### Expressions -/

/-- The operands that a formula over a vocabulary can be made of. -/
inductive Operand (v : Vocabulary) where
  /-- A number. -/
  | number (text : String) (h : Literal.IsNumber (Utf8.bytes text))
  /-- A string with its quotes. -/
  | quoted (text : String) (h : Literal.IsQuoted (Utf8.bytes text))
  /-- A path reference. -/
  | reference (text : String) (h : IsReference (Utf8.bytes text))
  /-- A constant. -/
  | constant (name : String) (h : IsName (Utf8.bytes name)) (hv : v.isConstant name)

namespace Operand

variable {v : Vocabulary}

/-- The text of an operand. -/
def text : Operand v → String
  | number text _ => text
  | quoted text _ => text
  | reference text _ => text
  | constant name _ _ => name

/-- The lexeme an operand is read as. -/
def lexeme : Operand v → Lexeme
  | number text _ => .number (Utf8.bytes text)
  | quoted text _ => .quoted (Utf8.bytes text)
  | reference text _ => .reference (Utf8.bytes text)
  | constant name _ _ => .word (Utf8.bytes name) false

theorem bytes_lexeme (x : Operand v) : x.lexeme.bytes = Utf8.bytes x.text := by
  cases x <;> rfl

theorem text_lexeme (x : Operand v) : x.lexeme.text = x.text := by
  cases x with
  | number text h | quoted text h | reference text h => exact Utf8.text_bytes text
  | constant name h hv => exact Lexeme.wordText_of_isName h

theorem isOperand_lexeme (x : Operand v) : x.lexeme.isOperand := by cases x <;> rfl

theorem endsOperand_lexeme (x : Operand v) : x.lexeme.endsOperand = true := by cases x <;> rfl

/-- Where no operand has ended, an operand in front of space is read as its lexeme. -/
theorem standsBefore (x : Operand v) {rest : List UInt8} (hrest : EndsWord rest) :
    x.lexeme.StandsBefore false rest := by
  cases x with
  | number text h => exact Lexeme.standsBefore_number h hrest
  | quoted text h => exact Lexeme.standsBefore_quoted false rest h
  | reference text h => exact Lexeme.standsBefore_reference false h hrest
  | constant name h hv =>
    exact Lexeme.standsBefore_word false h (Lexeme.endsBefore_of_endsWord (by simp) hrest)

end Operand

/-- Expression trees over a vocabulary. -/
inductive Expr (v : Vocabulary) where
  /-- An operand. -/
  | operand (x : Operand v)
  /-- An operator between two operands. -/
  | binary (op : Operator) (hop : op ≠ .factorial) (left right : Expr v)
  /-- A factorial. -/
  | factorial (e : Expr v)
  /-- A function of one argument. -/
  | call (name : String) (h : IsName (Utf8.bytes name)) (hv : v.isFunction name) (e : Expr v)
  /-- An expression in parentheses. -/
  | parens (e : Expr v)

namespace Expr

variable {v : Vocabulary}

/-- The infix text.  A space stands between any two tokens, but none in front of
the parenthesis of a call. -/
def text : Expr v → String
  | operand x => x.text
  | binary op _ left right => left.text ++ " " ++ op.symbol ++ " " ++ right.text
  | factorial e => e.text ++ " " ++ Operator.factorial.symbol
  | call name _ _ e => name ++ "( " ++ e.text ++ " )"
  | parens e => "( " ++ e.text ++ " )"

/-- The postfix order: every operator and function behind its operands, and no
parentheses. -/
def postorder : Expr v → List Entry
  | operand x => [.operand x.text]
  | binary op _ left right => left.postorder ++ right.postorder ++ [.operator op]
  | factorial e => e.postorder ++ [.operator .factorial]
  | call name _ _ e => e.postorder ++ [.function name]
  | parens e => e.postorder

/-- The lexemes of the infix text. -/
def lexemes : Expr v → List Lexeme
  | operand x => [x.lexeme]
  | binary op _ left right => left.lexemes ++ .operator (.operator op) :: right.lexemes
  | factorial e => e.lexemes ++ [.operator (.operator .factorial)]
  | call name _ _ e => .word (Utf8.bytes name) true :: .openParen :: (e.lexemes ++ [.closeParen])
  | parens e => .openParen :: (e.lexemes ++ [.closeParen])

theorem isGap_nil : Byte.IsGap [] := by simp [Byte.IsGap]

theorem isGap_space : Byte.IsGap [' '.toUInt8] := by
  intro b hb
  rw [List.mem_singleton.mp hb]
  rfl

theorem endsWord_space (rest : List UInt8) : EndsWord (' '.toUInt8 :: rest) :=
  endsWord_cons rfl rest

theorem bytes_space : Utf8.bytes " " = [' '.toUInt8] := rfl

theorem bytes_open : Utf8.bytes "( " = ['('.toUInt8, ' '.toUInt8] := rfl

theorem bytes_close : Utf8.bytes " )" = [' '.toUInt8, ')'.toUInt8] := rfl

theorem bytes_operator (op : Operator) : Utf8.bytes op.symbol = op.bytes :=
  Lexeme.bytes_symbol (.operator op)

/-- Where the text of an expression is read, it is read in parentheses too. -/
theorem exists_reads_parens {bytes gap : List UInt8} {ls : List Lexeme} (rest : List UInt8)
    (hgap : Byte.IsGap gap)
    (h : ∀ rest, EndsWord rest → ∃ ps, Reads false ([' '.toUInt8] ++ (bytes ++ rest)) ps true rest ∧
      ps.map Piece.lexeme = ls) :
    ∃ ps, Reads false (gap ++ ('('.toUInt8 :: ' '.toUInt8 :: (bytes ++
        (' '.toUInt8 :: ')'.toUInt8 :: rest)))) ps true rest ∧
      ps.map Piece.lexeme = .openParen :: (ls ++ [.closeParen]) := by
  have hopen := Reads.of_standsBefore hgap (Lexeme.standsBefore_openParen false
    (' '.toUInt8 :: (bytes ++ (' '.toUInt8 :: ')'.toUInt8 :: rest))))
  have hclose := Reads.of_standsBefore isGap_space (Lexeme.standsBefore_closeParen true rest)
  obtain ⟨ps, hps, hls⟩ := h (' '.toUInt8 :: ')'.toUInt8 :: rest) (endsWord_space _)
  refine ⟨_, hopen.trans (hps.trans hclose), ?_⟩
  simp [hls]

/-- Where no operand has ended, the text of an expression is read as its lexemes,
with any gap in front of it and space or nothing behind it. -/
theorem exists_reads (e : Expr v) {gap rest : List UInt8} (hgap : Byte.IsGap gap)
    (hrest : EndsWord rest) :
    ∃ ps, Reads false (gap ++ (Utf8.bytes e.text ++ rest)) ps true rest ∧
      ps.map Piece.lexeme = e.lexemes := by
  induction e generalizing gap rest with
  | operand x =>
    have hread := Reads.of_standsBefore hgap (x.standsBefore hrest)
    rw [x.bytes_lexeme, x.endsOperand_lexeme] at hread
    exact ⟨_, hread, rfl⟩
  | binary op hop left right ihleft ihright =>
    obtain ⟨rs, hrs, hright⟩ := ihright isGap_space hrest
    have hread := Reads.of_standsBefore isGap_space
      (Lexeme.standsBefore_operator op (endsWord_space (Utf8.bytes right.text ++ rest)))
    have hends : (Lexeme.operator (.operator op)).endsOperand = false := by
      simpa [Lexeme.endsOperand, Mark.isPostfix, Operator.isPostfix] using hop
    rw [hends] at hread
    obtain ⟨ls, hls, hleft⟩ := ihleft hgap (endsWord_space
      (op.bytes ++ (' '.toUInt8 :: (Utf8.bytes right.text ++ rest))))
    have htext : Utf8.bytes (binary op hop left right).text ++ rest = Utf8.bytes left.text ++
        (' '.toUInt8 :: (op.bytes ++ (' '.toUInt8 :: (Utf8.bytes right.text ++ rest)))) := by
      simp [text, Utf8.bytes_append, bytes_space, bytes_operator]
    rw [htext]
    refine ⟨_, hls.trans (hread.trans hrs), ?_⟩
    simp [hleft, hright, lexemes]
  | factorial e ih =>
    have hread := Reads.of_standsBefore isGap_space
      (Lexeme.standsBefore_operator .factorial hrest)
    obtain ⟨ps, hps, he⟩ := ih hgap (endsWord_space (Operator.factorial.bytes ++ rest))
    have htext : Utf8.bytes (factorial e).text ++ rest = Utf8.bytes e.text ++
        (' '.toUInt8 :: (Operator.factorial.bytes ++ rest)) := by
      simp [text, Utf8.bytes_append, bytes_space, bytes_operator]
    rw [htext]
    refine ⟨_, hps.trans hread, ?_⟩
    simp [he, lexemes]
  | call name h hv e ih =>
    obtain ⟨ps, hps, he⟩ := exists_reads_parens rest isGap_nil fun rest => ih isGap_space
    -- the name ends in front of its parenthesis, and is called by it
    have hread := Reads.of_standsBefore hgap (Lexeme.standsBefore_call false h
      (' '.toUInt8 :: (Utf8.bytes e.text ++ (' '.toUInt8 :: ')'.toUInt8 :: rest))))
    have htext : Utf8.bytes (call name h hv e).text ++ rest = Utf8.bytes name ++ ('('.toUInt8 ::
        ' '.toUInt8 :: (Utf8.bytes e.text ++ (' '.toUInt8 :: ')'.toUInt8 :: rest))) := by
      simp [text, Utf8.bytes_append, bytes_open, bytes_close]
    rw [htext]
    refine ⟨_, hread.trans hps, ?_⟩
    simp [he, lexemes]
  | parens e ih =>
    obtain ⟨ps, hps, he⟩ := exists_reads_parens rest hgap fun rest => ih isGap_space
    have htext : Utf8.bytes (parens e).text ++ rest = '('.toUInt8 :: ' '.toUInt8 ::
        (Utf8.bytes e.text ++ (' '.toUInt8 :: ')'.toUInt8 :: rest)) := by
      simp [text, Utf8.bytes_append, bytes_open, bytes_close]
    rw [htext]
    exact ⟨ps, hps, he⟩

end Expr

end PathFormula
