import PathFormula.Proofs.Expression

/-!
# Ordering follows the expression

The postfix order of an expression's text is that of the tree, if parentheses
stand at least where tiers and grouping ask for them.

While the text is taken, what the tree has put on the stack lies above what was
there before.  It binds at least as tightly as the tree, so an operator that comes
next releases all of it; and what was there before binds less tightly than any
operator of the tree outside its parentheses, so the tree releases none of it.

## Main definitions

* `Expr.tier`, `Expr.isGrouped` — how tightly a tree binds, and that it has
  parentheses where it needs them.
* `Bars n stack` — what is on top of the stack stays there while operators of
  tier `n` or tighter are taken.
* `Builder.Gains` — a builder has gained the entries of a tree.

## Main results

* `Builder.Gains.operator` — an operator finds all operands put out, and waits.
* `Builder.exists_run_gains` — a builder gains the entries of a tree from its text.
* `Expr.ofFormula_text` — **the text of a tree has the postfix order of the tree.**
-/

namespace PathFormula

namespace Expr

variable {v : Vocabulary}

/-- The tier of the operator at the root.  A tree with another root binds tighter
than all operators. -/
def tier : Expr v → Nat
  | binary op _ _ _ => op.tier
  | factorial _ => Operator.factorial.tier
  | operand _ | call _ _ _ _ | parens _ => Operator.factorial.tier + 1

/-- Whether an operator between two operands is at the root. -/
def isBinary : Expr v → Bool
  | binary _ _ _ _ => true
  | _ => false

/-- Whether parentheses stand wherever they are needed: around an operand of a
lower tier, around one of an equal tier on the side to which the operator does not
group, and around an operator between two operands in front of a factorial. -/
def isGrouped : Expr v → Bool
  | operand _ => true
  | binary op _ left right =>
    left.isGrouped && right.isGrouped &&
      if op.isRightAssociative then op.tier < left.tier && op.tier ≤ right.tier
      else op.tier ≤ left.tier && op.tier < right.tier
  | factorial e => e.isGrouped && !e.isBinary
  | call _ _ _ e => e.isGrouped
  | parens e => e.isGrouped

theorem postorder_ne_nil (e : Expr v) : e.postorder ≠ [] := by
  cases e with
  | parens e => exact postorder_ne_nil e
  | operand | binary | factorial | call => simp [postorder]

/-- Only operators between two operands bind less tightly than a factorial. -/
theorem tier_factorial_le {e : Expr v} (he : e.isBinary = false) :
    Operator.factorial.tier ≤ e.tier := by
  cases e with
  | binary => cases he
  | operand | factorial | call | parens => simp [tier]

end Expr

namespace Expr

variable {v : Vocabulary} {op : Operator}

theorem isGrouped_binary {hop : op ≠ .factorial} {left right : Expr v} :
    (binary op hop left right).isGrouped ↔ left.isGrouped ∧ right.isGrouped ∧
      (if op.isRightAssociative then op.tier < left.tier else op.tier ≤ left.tier) ∧
      (if op.isRightAssociative then op.tier ≤ right.tier else op.tier < right.tier) := by
  rw [isGrouped, Bool.and_eq_true, Bool.and_eq_true, and_assoc]
  by_cases hright : op.isRightAssociative <;> simp [hright]

theorem isGrouped_factorial {e : Expr v} :
    (factorial e).isGrouped ↔ e.isGrouped ∧ e.isBinary = false := by
  rw [isGrouped, Bool.and_eq_true, Bool.not_eq_true']

end Expr

/-! ### What yields to an operator -/

theorem Operator.isRightAssociative_eq {op op' : Operator} (h : op.tier = op'.tier) :
    op.isRightAssociative = op'.isRightAssociative := by
  have hpower (op : Operator) : op.isRightAssociative = (op.tier == 6) := by
    cases op <;> decide
  rw [hpower, hpower, h]

/-- What waits can be released, and is no operator of a tier below `n`. -/
def Pending.Binds (n : Nat) : Pending → Prop
  | operator (.operator op) => n ≤ op.tier
  | operator .equals => False
  | function _ => True
  | openParen _ => False

namespace Pending

variable {n : Nat} {p : Pending}

theorem Binds.isSome_asEntry (hp : p.Binds n) : p.asEntry.isSome := by
  rcases p with (op | _) | name | offset
  · rfl
  · cases hp
  · rfl
  · cases hp

theorem Binds.mono {m : Nat} (hp : p.Binds n) (h : m ≤ n) : p.Binds m := by
  rcases p with (op | _) | name | offset
  · exact Nat.le_trans h hp
  · cases hp
  · trivial
  · cases hp

/-- What binds tightly enough yields to an operator behind it. -/
theorem Binds.yieldsTo {op : Operator} (hp : p.Binds n)
    (h : if op.isRightAssociative then op.tier < n else op.tier ≤ n) :
    p.yieldsTo (.operator op) := by
  rcases p with (above | _) | name | offset
  · have hle : n ≤ above.tier := hp
    show (op.tier < above.tier || op.tier == above.tier && !above.isRightAssociative) = true
    by_cases hlt : op.tier < above.tier
    · simp [hlt]
    · -- at an equal tier both group from the left
      by_cases hright : op.isRightAssociative
      · rw [if_pos hright] at h
        omega
      · rw [if_neg hright] at h
        have htier : op.tier = above.tier := by omega
        have hleft : above.isRightAssociative = false := by
          rw [← Operator.isRightAssociative_eq htier]
          simpa using hright
        simp [htier, hleft]
  · cases hp
  · rfl
  · cases hp

end Pending

/-- What is on top of the stack stays there while operators of tier `n` or tighter
are taken. -/
def Bars (n : Nat) (stack : List Pending) : Prop :=
  ∀ p ∈ stack.head?, ∀ op : Operator, n ≤ op.tier → p.yieldsTo (.operator op) = false

namespace Bars

variable {n : Nat} {stack : List Pending}

theorem mono {m : Nat} (h : Bars m stack) (hle : m ≤ n) : Bars n stack :=
  fun p hp op hop => h p hp op (Nat.le_trans hle hop)

theorem nil (n : Nat) : Bars n [] := by simp [Bars]

theorem openParen (n offset : Nat) (stack : List Pending) :
    Bars n (.openParen offset :: stack) := by
  intro p hp op hop
  cases hp
  rfl

/-- An operator stays while its right operand is taken. -/
theorem operator {op : Operator} (stack : List Pending)
    (h : if op.isRightAssociative then op.tier ≤ n else op.tier < n) :
    Bars n (.operator (.operator op) :: stack) := by
  intro p hp op' hop'
  cases hp
  show (op'.tier < op.tier || op'.tier == op.tier && !op.isRightAssociative) = false
  by_cases hright : op.isRightAssociative
  · rw [if_pos hright] at h
    have hnot : ¬ op'.tier < op.tier := by omega
    simp [hnot, hright]
  · rw [if_neg hright] at h
    have hnot : ¬ op'.tier < op.tier := by omega
    have hne : ¬ op'.tier = op.tier := by omega
    simp [hnot, hne]

/-- An operator releases what yields to it, and nothing below. -/
theorem span_eq {waiting : List Pending} {op : Operator} (h : Bars op.tier stack)
    (hwaiting : ∀ p ∈ waiting, p.yieldsTo (.operator op)) :
    (waiting ++ stack).takeWhile (Pending.yieldsTo (.operator op)) = waiting ∧
      (waiting ++ stack).dropWhile (Pending.yieldsTo (.operator op)) = stack :=
  span_append hwaiting fun top htop => h top htop op (Nat.le_refl _)

end Bars

namespace Builder

variable {v : Vocabulary} {b b' : Builder} {n : Nat}

/-- `b'` has gained the entries over `b`.  Those that still wait bind at least as
tightly as `n`, and an operand has just ended. -/
inductive Gains (b : Builder) (n : Nat) (entries : List Entry) (b' : Builder) : Prop
  | intro (waiting : List Pending) (settled : List Entry) (hstack : b'.stack = waiting ++ b.stack)
    (houtput : b'.output = settled.reverse ++ b.output)
    (hentries : settled ++ waiting.filterMap Pending.asEntry = entries)
    (hwaiting : ∀ p ∈ waiting, p.Binds n) (hafter : b'.afterOperand = true)

/-! ### What the lexemes of a tree do -/

theorem exists_step_operand {p : Piece} {x : Operand v} (hp : p.lexeme = x.lexeme) :
    ∃ b', b.step v p = .ok b' ∧ Gains b n [.operand x.text] b' := by
  have hv (bs : List UInt8) (hx : x.lexeme = .word bs false) :
      v.isConstant (Lexeme.wordText bs) := by
    cases x with
    | number | quoted | reference => cases hx
    | constant name h hv =>
      cases hx
      rwa [Lexeme.wordText_of_isName h]
  refine ⟨_, step_of_takes hp (.operand x.isOperand_lexeme hv), ?_⟩
  rw [x.text_lexeme]
  exact .intro [] [.operand x.text] rfl rfl rfl (by simp) x.endsOperand_lexeme

/-- An operator behind a tree that binds tightly enough finds all of it put out. -/
theorem Gains.operator {entries : List Entry} {p : Piece} {op : Operator}
    (h : Gains b n entries b') (hp : p.lexeme = .operator (.operator op))
    (hn : if op.isRightAssociative then op.tier < n else op.tier ≤ n)
    (hb : Bars op.tier b.stack) :
    ∃ b'', b'.step v p = .ok b'' ∧ b''.stack = .operator (.operator op) :: b.stack ∧
      b''.output = entries.reverse ++ b.output ∧ b''.afterOperand = op.isPostfix := by
  obtain ⟨waiting, settled, hstack, houtput, rfl, hwaiting, hafter⟩ := h
  obtain ⟨hreleased, hkept⟩ := hb.span_eq fun q hq => (hwaiting q hq).yieldsTo hn
  refine ⟨_, step_of_takes hp (.operator hafter), ?_, ?_, rfl⟩
  · show _ :: b'.stack.dropWhile _ = _
    rw [hstack, hkept]
  · show ((b'.stack.takeWhile _).filterMap Pending.asEntry).reverse ++ b'.output = _
    rw [hstack, hreleased, houtput, List.reverse_append, List.append_assoc]

theorem exists_step_openParen {p : Piece} (b : Builder) (hp : p.lexeme = .openParen) :
    ∃ b' offset, b.step v p = .ok b' ∧ b'.stack = .openParen offset :: b.stack ∧
      b'.output = b.output ∧ b'.afterOperand = false :=
  ⟨_, _, step_of_takes hp .openParen, rfl, rfl, rfl⟩

theorem exists_step_function {p : Piece} {name : String} (b : Builder)
    (hp : p.lexeme = .word (Utf8.bytes name) true) (h : IsName (Utf8.bytes name))
    (hv : v.isFunction name) :
    ∃ b', b.step v p = .ok b' ∧ b'.stack = .function name :: b.stack ∧ b'.output = b.output := by
  have hname := Lexeme.wordText_of_isName h
  refine ⟨_, step_of_takes hp (.function (by rwa [hname])), ?_, rfl⟩
  rw [hname]
  rfl

/-- A closing parenthesis behind a tree puts out all of it. -/
theorem Gains.closeParen {entries : List Entry} {p : Piece} {opened : Nat}
    {below : List Pending} (h : Gains b n entries b') (hb : b.stack = .openParen opened :: below)
    (hp : p.lexeme = .closeParen) :
    ∃ b'', b'.step v p = .ok b'' ∧ b''.stack = below ∧
      b''.output = entries.reverse ++ b.output ∧ b''.afterOperand = true := by
  obtain ⟨waiting, settled, hstack, houtput, rfl, hwaiting, hafter⟩ := h
  rw [hb] at hstack
  refine ⟨_, step_of_takes hp (.closeParen hstack fun q hq => (hwaiting q hq).isSome_asEntry),
    rfl, ?_, rfl⟩
  show (waiting.filterMap Pending.asEntry).reverse ++ b'.output = _
  rw [houtput, List.reverse_append, List.append_assoc]

/-- Parentheses put out all of the tree between them, whatever is below. -/
theorem exists_run_parens {entries : List Entry} {ls : List Lexeme} {ps : List Piece}
    (hps : ps.map Piece.lexeme = .openParen :: (ls ++ [.closeParen]))
    (h : ∀ {b : Builder} {ps : List Piece}, ps.map Piece.lexeme = ls → Bars n b.stack →
      ∃ b', b.run v ps = .ok b' ∧ Gains b n entries b') (b : Builder) :
    ∃ b', b.run v ps = .ok b' ∧ b'.stack = b.stack ∧ b'.output = entries.reverse ++ b.output ∧
      b'.afterOperand = true := by
  obtain ⟨p, ps, rfl, hopen, hps⟩ := List.map_eq_cons_iff.mp hps
  obtain ⟨ps, back, rfl, hls, hback⟩ := List.map_eq_append_iff.mp hps
  obtain ⟨q, rest, rfl, hclose, hrest⟩ := List.map_eq_cons_iff.mp hback
  obtain rfl := List.map_eq_nil_iff.mp hrest
  obtain ⟨b₁, offset, hstep₁, hstack₁, houtput₁, -⟩ := exists_step_openParen (v := v) b hopen
  -- the open parenthesis bars all that is below it
  have hbars : Bars n b₁.stack := by
    rw [hstack₁]
    exact .openParen n offset b.stack
  obtain ⟨b₂, hrun₂, hgains⟩ := h hls hbars
  obtain ⟨b₃, hstep₃, hstack₃, houtput₃, hafter⟩ := hgains.closeParen (v := v) hstack₁ hclose
  refine ⟨b₃, ?_, hstack₃, ?_, hafter⟩
  · exact run_cons.mpr ⟨b₁, hstep₁, (run_append ps [q]).mpr ⟨b₂, hrun₂, run_singleton.mpr hstep₃⟩⟩
  · rw [houtput₃, houtput₁]

/-- An operator waits with what still waits of its right operand. -/
theorem Gains.binary {left right : List Entry} {op : Operator} {b₁ b₂ : Builder} {m : Nat}
    (h : Gains b₁ m right b₂) (hm : op.tier ≤ m)
    (hstack : b₁.stack = .operator (.operator op) :: b.stack)
    (houtput : b₁.output = left.reverse ++ b.output) :
    Gains b op.tier (left ++ right ++ [.operator op]) b₂ := by
  obtain ⟨waiting, settled, hstack₂, houtput₂, rfl, hwaiting, hafter⟩ := h
  refine .intro (waiting ++ [.operator (.operator op)]) (left ++ settled) ?_ ?_ ?_ ?_ hafter
  · rw [hstack₂, hstack, List.append_assoc]
    rfl
  · rw [houtput₂, houtput, List.reverse_append, List.append_assoc]
  · rw [List.filterMap_append]
    simp [Pending.asEntry]
  · intro p hp
    rcases List.mem_append.mp hp with hp | hp
    · exact (hwaiting p hp).mono hm
    · rw [List.mem_singleton.mp hp]
      exact Nat.le_refl _

/-- A builder gains the entries of a tree from its lexemes, if nothing below
yields to the operators of the tree. -/
theorem exists_run_gains {e : Expr v} (he : e.isGrouped) {ps : List Piece}
    (hps : ps.map Piece.lexeme = e.lexemes) (hb : Bars e.tier b.stack) :
    ∃ b', b.run v ps = .ok b' ∧ Gains b e.tier e.postorder b' := by
  induction e generalizing b ps with
  | operand x =>
    obtain ⟨p, rest, rfl, hp, hrest⟩ := List.map_eq_cons_iff.mp hps
    obtain rfl := List.map_eq_nil_iff.mp hrest
    obtain ⟨b', hstep, hgains⟩ := exists_step_operand hp
    exact ⟨b', run_singleton.mpr hstep, hgains⟩
  | binary op hop left right ihleft ihright =>
    obtain ⟨hleft, hright, hfits, hfits'⟩ := Expr.isGrouped_binary.mp he
    obtain ⟨ls, back, rfl, hls, hback⟩ := List.map_eq_append_iff.mp hps
    obtain ⟨p, rs, rfl, hp, hrs⟩ := List.map_eq_cons_iff.mp hback
    have hle : op.tier ≤ left.tier := by split at hfits <;> omega
    have hle' : op.tier ≤ right.tier := by split at hfits' <;> omega
    -- the left operand, the operator, and the right operand above it
    obtain ⟨b₁, hrun₁, hgains₁⟩ := ihleft hleft hls (hb.mono hle)
    obtain ⟨b₂, hstep, hstack, houtput, -⟩ := hgains₁.operator (v := v) hp hfits hb
    have hbars : Bars right.tier b₂.stack := by
      rw [hstack]
      exact .operator b.stack hfits'
    obtain ⟨b₃, hrun₃, hgains₃⟩ := ihright hright hrs hbars
    refine ⟨b₃, (run_append ls _).mpr ⟨b₁, hrun₁, run_cons.mpr ⟨b₂, hstep, hrun₃⟩⟩, ?_⟩
    exact hgains₃.binary hle' hstack houtput
  | factorial e ih =>
    obtain ⟨hgrouped, hbinary⟩ := Expr.isGrouped_factorial.mp he
    obtain ⟨front, back, rfl, hfront, hback⟩ := List.map_eq_append_iff.mp hps
    obtain ⟨p, rest, rfl, hp, hrest⟩ := List.map_eq_cons_iff.mp hback
    obtain rfl := List.map_eq_nil_iff.mp hrest
    have htier := Expr.tier_factorial_le hbinary
    obtain ⟨b₁, hrun₁, hgains₁⟩ := ih hgrouped hfront (hb.mono htier)
    obtain ⟨b₂, hstep, hstack, houtput, hafter⟩ := hgains₁.operator (v := v) hp htier hb
    refine ⟨b₂, (run_append front _).mpr ⟨b₁, hrun₁, run_singleton.mpr hstep⟩, ?_⟩
    refine .intro [.operator (.operator .factorial)] e.postorder hstack houtput rfl ?_ hafter
    intro q hq
    rw [List.mem_singleton.mp hq]
    exact Nat.le_refl _
  | call name h hv e ih =>
    obtain ⟨p, back, rfl, hp, hback⟩ := List.map_eq_cons_iff.mp hps
    obtain ⟨b₁, hstep, hstack₁, houtput₁⟩ := exists_step_function b hp h hv
    obtain ⟨b₂, hrun, hstack₂, houtput₂, hafter⟩ := exists_run_parens hback (ih he) b₁
    refine ⟨b₂, run_cons.mpr ⟨b₁, hstep, hrun⟩, ?_⟩
    -- the function waits behind its argument
    refine .intro [.function name] e.postorder ?_ ?_ rfl ?_ hafter
    · rw [hstack₂, hstack₁]
      rfl
    · rw [houtput₂, houtput₁]
    · intro q hq
      rw [List.mem_singleton.mp hq]
      trivial
  | parens e ih =>
    obtain ⟨b', hrun, hstack, houtput, hafter⟩ := exists_run_parens hps (ih he) b
    exact ⟨b', hrun, .intro [] e.postorder hstack houtput (List.append_nil _) (by simp) hafter⟩

end Builder

/-! ### The whole text -/

/-- **The text of a tree has the postfix order of the tree.** -/
theorem Expr.ofFormula_text {v : Vocabulary} {e : Expr v} (he : e.isGrouped) :
    Postfix.ofFormula v e.text = .ok ⟨e.postorder⟩ := by
  obtain ⟨ps, hreads, hps⟩ := e.exists_reads isGap_nil endsWord_nil
  rw [List.nil_append, List.append_nil] at hreads
  have hreading : Reading.ofText e.text = ⟨ps, .ok []⟩ :=
    Reading.ofBytes_eq_iff.mpr ⟨true, [], hreads, .space isGap_nil⟩
  obtain ⟨b, hrun, waiting, settled, hstack, houtput, hentries, hwaiting, -⟩ :=
    Builder.exists_run_gains (b := .start) he hps (.nil _)
  rw [Postfix.ofFormula_eq_ok_iff, hreading]
  refine ⟨b, [], hrun, rfl, Builder.finish_eq_ok_iff.mpr ⟨?_, e.postorder_ne_nil, ?_⟩⟩
  · intro q hq
    rw [hstack] at hq
    simp only [Builder.start, List.append_nil] at hq
    exact (hwaiting q hq).isSome_asEntry
  · show e.postorder = _
    rw [houtput, hstack, ← hentries]
    simp [Builder.start]

/-- A factorial of a difference, raised to a power. -/
theorem Expr.ofFormula_text_power :
    ∃ e : Expr .standard, e.isGrouped ∧ e.text = "( 2 - pi ) ! ** sin( @ )" ∧
      Postfix.ofFormula .standard "( 2 - pi ) ! ** sin( @ )" =
        .ok ⟨[.operand "2", .operand "pi", .operator .minus, .operator .factorial, .operand "@",
          .function "sin", .operator .power]⟩ := by
  have htwo : Literal.IsNumber (Utf8.bytes "2") := by
    rw [show Utf8.bytes "2" = ['2'.toUInt8] by decide +kernel]
    have hdigits : Literal.IsDigits ['2'.toUInt8] := ⟨by simp, by decide +kernel⟩
    exact .unsigned hdigits .nil .nil
  have hpi : IsName (Utf8.bytes "pi") := by
    rw [show Utf8.bytes "pi" = ['p'.toUInt8, 'i'.toUInt8] by decide +kernel]
    exact .intro rfl (by decide +kernel)
  have hroot : IsReference (Utf8.bytes "@") := by
    rw [show Utf8.bytes "@" = ['@'.toUInt8] by decide +kernel]
    exact .intro (.inr rfl) (.nil false)
  have hsin : IsName (Utf8.bytes "sin") := by
    rw [show Utf8.bytes "sin" = ['s'.toUInt8, 'i'.toUInt8, 'n'.toUInt8] by decide +kernel]
    exact .intro rfl (by decide +kernel)
  let difference : Expr .standard := .binary .minus (by decide) (.operand (.number "2" htwo))
    (.operand (.constant "pi" hpi (by decide +kernel)))
  let sine : Expr .standard := .call "sin" hsin (by decide +kernel)
    (.operand (.reference "@" hroot))
  let e : Expr .standard := .binary .power (by decide) (.factorial (.parens difference)) sine
  have htext : e.text = "( 2 - pi ) ! ** sin( @ )" := rfl
  have h := ofFormula_text (e := e) rfl
  rw [htext] at h
  exact ⟨e, rfl, htext, h⟩

end PathFormula
