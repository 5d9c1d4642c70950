import PathFormula.Proofs.Drivers
import PathFormula.Proofs.Stack

/-!
# What a vocabulary decides

A vocabulary is asked about the words of a formula, each time with one question: is this
name a function, if the word is called, and is it a constant, if it is not.  An answer of no
ends the run, and an answer of yes leaves no trace, neither in what goes to the output nor
in what waits.  So the runs of two vocabularies go through the same builders, up to the
first word about which they are not of one mind; there one of them stops.

## Main definitions

* `Vocabulary.IsWithin v w` — every name of `v` is one of `w`, and of the same kind.
* `Vocabulary.Lacks v w fault` — the fault is that `v` lacks a name which `w` has.
* `Agrees v w` — what becomes of a formula is the same, but for such a fault.
* `Fault.isUnknown` — whether the fault is that a name is unknown.

## Main results

* `Builder.take_agrees`, `Builder.run_agrees` — builders agree on a lexeme, and so on all.
* `Postfix.ofFormula_agrees` — two vocabularies agree on what becomes of a formula.
* `Postfix.ofFormula_indep_vocabulary` — **a vocabulary only says which formulas have a
  postfix order, not what it is.**
-/

namespace PathFormula

/-- Whether the fault is that a name is unknown. -/
def Fault.isUnknown : Fault → Bool
  | unknownFunction _ _ | unknownConstant _ _ => true
  | _ => false

namespace Vocabulary

/-- Every name of the vocabulary is one of the other, and of the same kind. -/
structure IsWithin (v w : Vocabulary) : Prop where
  isFunction : ∀ name, v.isFunction name → w.isFunction name
  isConstant : ∀ name, v.isConstant name → w.isConstant name

/-- The fault is that `v` lacks a name which `w` has. -/
inductive Lacks (v w : Vocabulary) : Fault → Prop
  | function {name : String} (offset : Nat) (hv : v.isFunction name = false)
    (hw : w.isFunction name) : Lacks v w (.unknownFunction name offset)
  | constant {name : String} (offset : Nat) (hv : v.isConstant name = false)
    (hw : w.isConstant name) : Lacks v w (.unknownConstant name offset)

variable {v w : Vocabulary} {fault : Fault}

theorem Lacks.isUnknown (h : v.Lacks w fault) : fault.isUnknown := by
  cases h <;> rfl

/-- A vocabulary lacks no name of one that is within it. -/
theorem IsWithin.not_lacks (h : v.IsWithin w) : ¬ w.Lacks v fault := by
  intro hlacks
  cases hlacks with
  | function _ hw hv => simp [h.isFunction _ hv] at hw
  | constant _ hw hv => simp [h.isConstant _ hv] at hw

end Vocabulary

/-- What becomes of something under the vocabulary `v` and under `w`: the same, unless one
of them lacks a name which the other has and that is its fault. -/
inductive Agrees (v w : Vocabulary) {α : Type} : Except Fault α → Except Fault α → Prop
  | same (outcome : Except Fault α) : Agrees v w outcome outcome
  | left {fault : Fault} (outcome : Except Fault α) (h : v.Lacks w fault) :
    Agrees v w (.error fault) outcome
  | right {fault : Fault} (outcome : Except Fault α) (h : w.Lacks v fault) :
    Agrees v w outcome (.error fault)

/-- Where either vocabulary is asked for a name, and its lack is a fault. -/
theorem Agrees.ite {v w : Vocabulary} {α : Type} {known known' : Bool} {fault : Fault}
    (outcome : Except Fault α) (hv : known = false → known' → v.Lacks w fault)
    (hw : known' = false → known → w.Lacks v fault) :
    Agrees v w (if known then outcome else .error fault)
      (if known' then outcome else .error fault) := by
  cases known with
  | false =>
    cases known' with
    | false => exact .same _
    | true => exact .left _ (hv rfl rfl)
  | true =>
    cases known' with
    | false => exact .right _ (hw rfl rfl)
    | true => exact .same _

namespace Builder

variable (v w : Vocabulary) (b : Builder)

/-- Of all lexemes, only a word can be taken under one vocabulary and not under the other. -/
theorem take_agrees (offset : Nat) (l : Lexeme) :
    Agrees v w (b.take v offset l) (b.take w offset l) := by
  cases l with
  | word bytes call =>
    cases call with
    | true => exact .ite _ (.function offset) (.function offset)
    | false => exact .ite _ (.constant offset) (.constant offset)
  | operator | number | quoted | reference | openParen | closeParen | dot | symbol =>
    exact .same _

theorem step_agrees (p : Piece) : Agrees v w (b.step v p) (b.step w p) := by
  have htake := b.take_agrees v w (b.offset + p.gap.length) p.lexeme
  unfold step
  generalize b.take v (b.offset + p.gap.length) p.lexeme = outcome at htake ⊢
  generalize b.take w (b.offset + p.gap.length) p.lexeme = outcome' at htake ⊢
  cases htake with
  | same => exact .same _
  | left _ h => exact .left _ h
  | right _ h => exact .right _ h

/-- Builders agree on pieces in a row. -/
theorem run_agrees (ps : List Piece) : Agrees v w (b.run v ps) (b.run w ps) := by
  induction ps generalizing b with
  | nil => exact .same _
  | cons p ps ih =>
    have hstep := b.step_agrees v w p
    unfold run
    generalize b.step v p = outcome at hstep ⊢
    generalize b.step w p = outcome' at hstep ⊢
    cases hstep with
    | same =>
      -- both go on with the same builder
      cases outcome with
      | ok after => exact ih after
      | error fault => exact .same _
    | left _ h => exact .left _ h
    | right _ h => exact .right _ h

end Builder

namespace Postfix

/-- Two vocabularies agree on what becomes of a formula. -/
theorem ofFormula_agrees (v w : Vocabulary) (s : String) :
    Agrees v w (ofFormula v s) (ofFormula w s) := by
  have hrun := Builder.start.run_agrees v w (Reading.ofText s).pieces
  rw [ofFormula_eq_ofReading, ofFormula_eq_ofReading, ofReading, ofReading]
  generalize Builder.start.run v (Reading.ofText s).pieces = outcome at hrun ⊢
  generalize Builder.start.run w (Reading.ofText s).pieces = outcome' at hrun ⊢
  cases hrun with
  | same => exact .same _
  | left _ h => exact .left _ h
  | right _ h => exact .right _ h

/-- **A vocabulary only says which formulas have a postfix order, not what it is.**

If a formula has a postfix order under two vocabularies, it is the same.  If the one is
within the other, then a formula that has a postfix order under the smaller one has it under
the larger one, too, and whatever else is wrong with a formula than an unknown name is wrong
with it under both. -/
theorem ofFormula_indep_vocabulary (v w : Vocabulary) (s : String) :
    (∀ p q, ofFormula v s = .ok p → ofFormula w s = .ok q → p = q) ∧
      (v.IsWithin w →
        (∀ p, ofFormula v s = .ok p → ofFormula w s = .ok p) ∧
        ∀ fault, ofFormula v s = .error fault → fault.isUnknown = false →
          ofFormula w s = .error fault) := by
  have hagrees := ofFormula_agrees v w s
  generalize ofFormula v s = outcome at hagrees ⊢
  generalize ofFormula w s = outcome' at hagrees ⊢
  cases hagrees with
  | same =>
    refine ⟨?_, fun _ => ⟨fun _ h => h, fun _ h _ => h⟩⟩
    rintro p q rfl hq
    exact Except.ok.inj hq
  | left _ h =>
    refine ⟨by rintro p q ⟨⟩, fun _ => ⟨by rintro p ⟨⟩, ?_⟩⟩
    rintro fault ⟨⟩ hknown
    rw [h.isUnknown] at hknown
    cases hknown
  | right _ h =>
    refine ⟨by rintro p q - ⟨⟩, fun hwithin => ?_⟩
    exact absurd h hwithin.not_lacks

/-- With more names, among them some that are functions and constants at once, a call keeps
its order, and a parenthesis that is not closed its fault. -/
theorem ofFormula_indep_vocabulary_call :
    let v := Vocabulary.ofLists ["sin"] ["x"]
    let w := Vocabulary.ofLists ["sin", "x", "cos"] ["x", "sin"]
    v.IsWithin w ∧
      ofFormula v "Sin(x) - 1" =
        .ok ⟨[.operand "x", .function "sin", .operand "1", .operator .minus]⟩ ∧
      ofFormula w "Sin(x) - 1" =
        .ok ⟨[.operand "x", .function "sin", .operand "1", .operator .minus]⟩ ∧
      ofFormula v "sin(x" = .error (.unbalancedParens 3) ∧
      ofFormula w "sin(x" = .error (.unbalancedParens 3) := by
  intro v w
  have hwithin : v.IsWithin w := by
    constructor <;> intro name hname <;>
      simp_all [v, w, Vocabulary.ofLists]
  have hcall : ofFormula v "Sin(x) - 1" =
      .ok ⟨[.operand "x", .function "sin", .operand "1", .operator .minus]⟩ := by decide +kernel
  have hopen : ofFormula v "sin(x" = .error (.unbalancedParens 3) := by decide +kernel
  exact ⟨hwithin, hcall, ((ofFormula_indep_vocabulary v w _).2 hwithin).1 _ hcall, hopen,
    ((ofFormula_indep_vocabulary v w _).2 hwithin).2 _ hopen rfl⟩

end Postfix

end PathFormula
