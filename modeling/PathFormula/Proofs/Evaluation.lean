import PathFormula.Proofs.Expression
import PathFormula.Proofs.Stack

/-!
# Evaluating a postfix order

A postfix order is evaluated on a stack: an operand goes onto it, a function and the
factorial replace the value on top, and every other operator replaces the two on top
by one.  The postfix order is ready for this if no value is ever missing and a single
one is left at the end.

Of a formula only the left operands are checked, so one that lacks a right operand, or
in which operands stand side by side, is accepted and is not ready.  Where operands and
operators alternate, nothing is missing: what has been put out leaves as many values as
binary operators wait, and one more behind an operand.

## Main definitions

* `Entry.depth? entries` — how many values entries leave, if none is ever missing.
* `Postfix.IsReady p` — a single value is left.
* `Lexeme.alternate` — operands and operators alternate.
* `Builder.Balanced b` — as many values as binary operators, and one more behind an
  operand.

## Main results

* `Takes.depth?_eq`, `Balanced.step` — what one step keeps.
* `Balanced.run` — what a run keeps.
* `exists_not_isReady` — a formula without its right operand is accepted and not ready.
* `isReady_of_alternate` — **where operands and operators alternate, the postfix order
  is ready.**
* `Expr.alternate_ofText` — in the text of an expression they do.
-/

namespace PathFormula

namespace Entry

/-- How many values there are after an entry, if there were enough before it. -/
def depthAfter? (depth : Nat) : Entry → Option Nat
  | operand _ => some (depth + 1)
  | function _ => if 1 ≤ depth then some depth else none
  | operator .factorial => if 1 ≤ depth then some depth else none
  | operator _ => if 2 ≤ depth then some (depth - 1) else none

/-- How many values the entries leave, if none is ever missing. -/
def depth? (entries : List Entry) : Option Nat := entries.foldlM depthAfter? 0

theorem depth?_append (front back : List Entry) :
    depth? (front ++ back) = (depth? front).bind fun n => back.foldlM depthAfter? n :=
  List.foldlM_append

theorem depth?_concat (entries : List Entry) (entry : Entry) :
    depth? (entries ++ [entry]) = (depth? entries).bind (entry.depthAfter? ·) := by
  simp [depth?_append]

end Entry

/-- An evaluator finds all values it needs and leaves a single one. -/
def Postfix.IsReady (p : Postfix) : Prop := Entry.depth? p.entries = some 1

instance (p : Postfix) : Decidable p.IsReady := inferInstanceAs (Decidable (_ = _))

namespace Lexeme

/-- Whether an operand begins with the lexeme. -/
def beginsOperand : Lexeme → Bool
  | number _ => true
  | quoted _ => true
  | reference _ => true
  | word _ _ => true
  | openParen => true
  | operator _ => false
  | closeParen => false
  | dot => false
  | symbol _ _ => false

/-- Operands and operators alternate: an operand begins exactly where none has just
ended, and the last lexeme ends one.  So none stands beside another, no operator lacks
its right operand, and neither parentheses nor calls are empty. -/
def alternate (afterOperand : Bool) : List Lexeme → Bool
  | [] => afterOperand
  | l :: ls => l.beginsOperand == !afterOperand && alternate l.endsOperand ls

theorem beginsOperand_of_isOperand {l : Lexeme} (h : l.isOperand) : l.beginsOperand := by
  cases l <;> first | rfl | cases h

theorem endsOperand_of_isOperand {l : Lexeme} (h : l.isOperand) : l.endsOperand := by
  cases l <;> first | rfl | exact h | cases h

end Lexeme

namespace Pending

/-- Whether two values become one when it is released. -/
def isBinary : Pending → Bool
  | operator mark => !mark.isPostfix
  | function _ => false
  | openParen _ => false

/-- What is released finds its values, if there is one more than binary operators wait. -/
theorem depthAfter?_of_asEntry {p : Pending} {entry : Entry} (h : p.asEntry = some entry)
    (n : Nat) : entry.depthAfter? (n + [p].countP isBinary + 1) = some (n + 1) := by
  rcases p with (op | _) | name | offset
  · cases h
    cases op <;> simp [Entry.depthAfter?, isBinary, Mark.isPostfix, Operator.isPostfix]
  · cases h
  · cases h
    simp [Entry.depthAfter?, isBinary]
  · cases h

end Pending

namespace Builder

variable {v : Vocabulary} {b b' : Builder} {offset : Nat} {l : Lexeme}

/-- Releasing keeps one value more than binary operators wait. -/
theorem depth?_release {above : List Pending} {entries : List Entry} {n : Nat}
    (habove : ∀ p ∈ above, p.asEntry.isSome)
    (h : Entry.depth? entries = some (n + above.countP Pending.isBinary + 1)) :
    Entry.depth? (entries ++ above.filterMap Pending.asEntry) = some (n + 1) := by
  induction above generalizing entries with
  | nil => simpa using h
  | cons p above ih =>
    obtain ⟨entry, hentry⟩ := Option.isSome_iff_exists.mp (habove p List.mem_cons_self)
    rw [List.filterMap_cons_some hentry, List.append_cons]
    refine ih (fun q hq => habove q (List.mem_cons_of_mem p hq)) ?_
    have hcount : n + (p :: above).countP Pending.isBinary + 1 =
        n + above.countP Pending.isBinary + [p].countP Pending.isBinary + 1 := by
      rw [← List.singleton_append, List.countP_append]
      omega
    rw [Entry.depth?_concat, h, hcount]
    exact Pending.depthAfter?_of_asEntry hentry _

/-- What has been put out leaves a value for each binary operator that waits, and one
more behind an operand. -/
def Balanced (b : Builder) : Prop :=
  Entry.depth? b.output.reverse =
    some (b.stack.countP Pending.isBinary + b.afterOperand.toNat)

theorem balanced_start : Balanced start := rfl

/-- Taking a lexeme that may stand where it does, a builder stays balanced. -/
theorem Takes.depth?_eq (h : Takes v b offset l b') (hb : Balanced b)
    (hl : l.beginsOperand = !b.afterOperand) :
    Entry.depth? b'.output.reverse =
      some (b'.stack.countP Pending.isBinary + l.endsOperand.toNat) := by
  unfold Balanced at hb
  cases h with
  | @operator mark hafter =>
    have hyields : ∀ p ∈ b.stack.takeWhile (Pending.yieldsTo mark), p.asEntry.isSome :=
      fun p hp => Pending.isSome_asEntry_of_yieldsTo (List.mem_takeWhile_imp hp)
    have hsplit := congrArg (List.countP Pending.isBinary)
      (List.takeWhile_append_dropWhile (p := Pending.yieldsTo mark) (l := b.stack))
    rw [List.countP_append, Nat.add_comm] at hsplit
    rw [hafter, ← hsplit] at hb
    have hreleased := depth?_release hyields hb
    simp only [List.reverse_append, List.reverse_reverse, hreleased, List.countP_cons]
    -- the operator itself waits for its right operand, or has ended an operand
    cases hends : mark.isPostfix <;> simp [Pending.isBinary, Lexeme.endsOperand, hends]
  | operand hoperand hv =>
    have hafter : b.afterOperand = false := by
      rw [Lexeme.beginsOperand_of_isOperand hoperand] at hl
      simpa using hl.symm
    rw [hafter] at hb
    rw [Lexeme.endsOperand_of_isOperand hoperand]
    show Entry.depth? (.operand l.text :: b.output).reverse = _
    rw [List.reverse_cons, Entry.depth?_concat, hb]
    rfl
  | function | openParen =>
    have hafter : b.afterOperand = false := by simpa [Lexeme.beginsOperand] using hl
    rw [hafter] at hb
    simpa [push, Pending.isBinary, Lexeme.endsOperand] using hb
  | @closeParen opened above below hstack habove =>
    have hafter : b.afterOperand = true := by simpa [Lexeme.beginsOperand] using hl
    have hcount : b.stack.countP Pending.isBinary =
        below.countP Pending.isBinary + above.countP Pending.isBinary := by
      simp [hstack, Pending.isBinary, Nat.add_comm]
    rw [hafter, hcount] at hb
    have hreleased := depth?_release habove hb
    simpa [Lexeme.endsOperand] using hreleased

/-- A step keeps a builder balanced. -/
theorem Balanced.step {p : Piece} (hb : Balanced b)
    (hl : p.lexeme.beginsOperand = !b.afterOperand) (h : b.step v p = .ok b') :
    Balanced b' ∧ b'.afterOperand = p.lexeme.endsOperand := by
  obtain ⟨after, htake, rfl⟩ := step_eq_ok_iff.mp h
  exact ⟨htake.depth?_eq hb hl, rfl⟩

/-- Taking pieces in which operands and operators alternate, a builder stays balanced,
and an operand ends with the last of them. -/
theorem Balanced.run {ps : List Piece} (hb : Balanced b)
    (hps : Lexeme.alternate b.afterOperand (ps.map Piece.lexeme)) (h : b.run v ps = .ok b') :
    Balanced b' ∧ b'.afterOperand = true := by
  induction ps generalizing b with
  | nil =>
    cases h
    exact ⟨hb, hps⟩
  | cons p ps ih =>
    obtain ⟨after, hstep, hrun⟩ := run_cons.mp h
    rw [List.map_cons, Lexeme.alternate, Bool.and_eq_true, beq_iff_eq] at hps
    obtain ⟨hafter, hends⟩ := hb.step hps.1 hstep
    refine ih hafter ?_ hrun
    rw [hends]
    exact hps.2

/-- At the end the operators that wait leave a single value. -/
theorem Balanced.isReady_of_finish {length : Nat} {p : Postfix} (hb : Balanced b)
    (hafter : b.afterOperand = true) (h : b.finish length = .ok p) : p.IsReady := by
  obtain ⟨hstack, -, hentries⟩ := finish_eq_ok_iff.mp h
  unfold Balanced at hb
  rw [hafter, ← Nat.zero_add (b.stack.countP _)] at hb
  rw [Postfix.IsReady, hentries]
  exact depth?_release hstack hb

end Builder

namespace Postfix

/-- A formula without its right operand is accepted, and its postfix order is not ready. -/
theorem exists_not_isReady :
    ofFormula .standard "1 +" = .ok ⟨[.operand "1", .operator .plus]⟩ ∧
      ¬ (⟨[.operand "1", .operator .plus]⟩ : Postfix).IsReady := by
  decide +kernel

/-- **Where operands and operators alternate, the postfix order is ready.** -/
theorem isReady_of_alternate {v : Vocabulary} {s : String} {p : Postfix}
    (h : ofFormula v s = .ok p)
    (hs : Lexeme.alternate false (Reading.ofText s).lexemes) : p.IsReady := by
  obtain ⟨b, gap, hrun, -, hfinish⟩ := ofFormula_eq_ok_iff.mp h
  obtain ⟨hb, hafter⟩ := Builder.balanced_start.run hs hrun
  exact hb.isReady_of_finish hafter hfinish

/-- A sum in parentheses, a call and a factorial. -/
theorem isReady_of_alternate_call :
    ofFormula .standard "(1 + 2) * sqrt(4) - 3!" =
        .ok ⟨[.operand "1", .operand "2", .operator .plus, .operand "4", .function "sqrt",
          .operator .times, .operand "3", .operator .factorial, .operator .minus]⟩ ∧
      Lexeme.alternate false (Reading.ofText "(1 + 2) * sqrt(4) - 3!").lexemes ∧
      (⟨[.operand "1", .operand "2", .operator .plus, .operand "4", .function "sqrt",
          .operator .times, .operand "3", .operator .factorial, .operator .minus]⟩ :
        Postfix).IsReady := by
  have hformula : ofFormula .standard "(1 + 2) * sqrt(4) - 3!" =
      .ok ⟨[.operand "1", .operand "2", .operator .plus, .operand "4", .function "sqrt",
        .operator .times, .operand "3", .operator .factorial, .operator .minus]⟩ := by
    decide +kernel
  have halternate : Lexeme.alternate false (Reading.ofText "(1 + 2) * sqrt(4) - 3!").lexemes := by
    decide +kernel
  exact ⟨hformula, halternate, isReady_of_alternate hformula halternate⟩

end Postfix

namespace Expr

variable {v : Vocabulary}

/-- An expression stands where an operand is due, and ends one. -/
theorem alternate_lexemes_append (e : Expr v) (ls : List Lexeme) :
    Lexeme.alternate false (e.lexemes ++ ls) = Lexeme.alternate true ls := by
  induction e generalizing ls with
  | operand x =>
    have hoperand := x.isOperand_lexeme
    simp [lexemes, Lexeme.alternate, Lexeme.beginsOperand_of_isOperand hoperand,
      Lexeme.endsOperand_of_isOperand hoperand]
  | binary op hop left right ihleft ihright =>
    have hends : (Lexeme.operator (.operator op)).endsOperand = false := by
      simpa [Lexeme.endsOperand, Mark.isPostfix, Operator.isPostfix] using hop
    rw [lexemes, List.append_assoc, ihleft, List.cons_append, Lexeme.alternate, hends, ihright]
    rfl
  | factorial e ih =>
    rw [lexemes, List.append_assoc, ih]
    rfl
  | call name h hv e ih =>
    rw [lexemes, List.cons_append, List.cons_append, List.append_assoc]
    show Lexeme.alternate false (e.lexemes ++ (.closeParen :: ls)) = _
    rw [ih]
    rfl
  | parens e ih =>
    rw [lexemes, List.cons_append, List.append_assoc]
    show Lexeme.alternate false (e.lexemes ++ (.closeParen :: ls)) = _
    rw [ih]
    rfl

/-- The text of an expression is read as its lexemes. -/
theorem lexemes_ofText (e : Expr v) : (Reading.ofText e.text).lexemes = e.lexemes := by
  obtain ⟨ps, hreads, hps⟩ := e.exists_reads isGap_nil endsWord_nil
  rw [List.nil_append, List.append_nil] at hreads
  have hreading : Reading.ofText e.text = ⟨ps, .ok []⟩ :=
    Reading.ofBytes_eq_iff.mpr ⟨true, [], hreads, .space isGap_nil⟩
  rw [hreading]
  exact hps

/-- In the text of an expression operands and operators alternate. -/
theorem alternate_ofText (e : Expr v) :
    Lexeme.alternate false (Reading.ofText e.text).lexemes := by
  rw [lexemes_ofText, ← List.append_nil e.lexemes, alternate_lexemes_append]
  rfl

end Expr

end PathFormula
