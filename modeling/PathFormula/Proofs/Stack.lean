import PathFormula.Postfix.Builder
import PathFormula.Proofs.Reads

/-!
# What the builder can do

The steps of the builder as a relation, one case for each kind of lexeme it can
take.  What a release takes from the stack, and that a lone equals sign or an open
parenthesis can never be released, is said here once.

## Main definitions

* `Pending.asEntry`, `Lexeme.asEntry` — the entry of the output that something on
  the stack, or a lexeme, stands for.
* `Builder.Takes` — how a builder can take a lexeme.
* `Lexeme.isOperand`, `Lexeme.isStray` — the operands, and the lexemes that no
  formula holds.

## Main results

* `releaseWhile_eq_ok_iff`, `releaseWhile_eq_error_iff` — when a release succeeds, and with
  what, and where it fails.
* `take_eq_ok_iff` — the builder takes what `Takes` allows, and nothing else.
* `finish_eq_ok_iff` — when a formula can end, and with what.
* `run_append`, `run_eq_error_iff` — pieces are taken one run after the other, up to the
  first that is not taken.
* `run_induction` — what every step keeps, a run keeps.
-/

namespace PathFormula

/-- The entry something on the stack is released as, if it can be released. -/
def Pending.asEntry : Pending → Option Entry
  | operator (.operator op) => some (.operator op)
  | operator .equals => none
  | function name => some (.function name)
  | openParen _ => none

theorem Pending.release_eq_ok_iff {p : Pending} {entry : Entry} :
    p.release = .ok entry ↔ p.asEntry = some entry := by
  rcases p with (op | _) | name | offset <;> simp [release, asEntry]

theorem Pending.isSome_asEntry_of_yieldsTo {mark : Mark} {p : Pending} (h : p.yieldsTo mark) :
    p.asEntry.isSome := by
  rcases p with (op | _) | name | offset <;> simp_all [yieldsTo, operatorYieldsTo, asEntry]

namespace Entry

/-- Whether an entry is an operand. -/
def isOperand : Entry → Bool
  | operand _ => true
  | _ => false

end Entry

theorem Pending.isOperand_of_asEntry {p : Pending} {entry : Entry} (h : p.asEntry = some entry) :
    entry.isOperand = false := by
  rcases p with (op | _) | name | offset <;> cases h <;> rfl

namespace Lexeme

/-- The entry a lexeme becomes.  Parentheses become none, and neither do lexemes
that no formula holds. -/
def asEntry : Lexeme → Option Entry
  | operator (.operator op) => some (.operator op)
  | number bytes => some (.operand (Utf8.text bytes))
  | quoted bytes => some (.operand (Utf8.text bytes))
  | reference bytes => some (.operand (Utf8.text bytes))
  | word bytes true => some (.function (wordText bytes))
  | word bytes false => some (.operand (wordText bytes))
  | _ => none

/-- A number, a string, a path reference, or a word that is not called. -/
def isOperand : Lexeme → Bool
  | number _ => true
  | quoted _ => true
  | reference _ => true
  | word _ call => !call
  | _ => false

/-- A lone point, a lone character, or a lone equals sign. -/
def isStray : Lexeme → Bool
  | dot => true
  | symbol _ _ => true
  | operator .equals => true
  | _ => false

theorem asEntry_of_isOperand {l : Lexeme} (h : l.isOperand) :
    l.asEntry = some (.operand l.text) := by
  cases l with
  | number | quoted | reference => rfl
  | word bytes call =>
    cases call with
    | true => cases h
    | false => rfl
  | operator | openParen | closeParen | dot | symbol => cases h

end Lexeme

/-! ### Releasing -/

/-- A release succeeds if all it takes can be released.  It takes from the top of
the stack as far as the test holds, and puts it out in this order. -/
theorem releaseWhile_eq_ok_iff {test : Pending → Bool} {stack stack' : List Pending}
    {output output' : List Entry} :
    releaseWhile test stack output = .ok (stack', output') ↔
      (∀ p ∈ stack.takeWhile test, p.asEntry.isSome) ∧ stack' = stack.dropWhile test ∧
        output' = ((stack.takeWhile test).filterMap Pending.asEntry).reverse ++ output := by
  induction stack generalizing output with
  | nil =>
    rw [releaseWhile]
    constructor
    · intro h
      cases h
      exact ⟨by simp, rfl, rfl⟩
    · rintro ⟨-, rfl, rfl⟩
      rfl
  | cons top below ih =>
    rw [releaseWhile]
    by_cases htop : test top
    · rw [if_pos htop, List.takeWhile_cons_of_pos htop, List.dropWhile_cons_of_pos htop]
      cases hrelease : top.release with
      | ok entry =>
        have hentry := Pending.release_eq_ok_iff.mp hrelease
        simp [ih, hentry]
      | error fault =>
        have hentry : top.asEntry = none := by
          rw [Option.eq_none_iff_forall_ne_some]
          intro entry hentry
          rw [Pending.release_eq_ok_iff.mpr hentry] at hrelease
          cases hrelease
        simp [hentry]
    · rw [if_neg htop, List.takeWhile_cons_of_neg htop, List.dropWhile_cons_of_neg htop]
      constructor
      · intro h
        cases h
        exact ⟨by simp, rfl, rfl⟩
      · rintro ⟨-, rfl, rfl⟩
        rfl

theorem releaseWhile_eq_ok {test : Pending → Bool} {stack : List Pending} (output : List Entry)
    (h : ∀ p ∈ stack.takeWhile test, p.asEntry.isSome) :
    releaseWhile test stack output = .ok (stack.dropWhile test,
      ((stack.takeWhile test).filterMap Pending.asEntry).reverse ++ output) :=
  releaseWhile_eq_ok_iff.mpr ⟨h, rfl, rfl⟩

/-- A release fails at the first on its way that cannot be released. -/
theorem releaseWhile_eq_error_iff {test : Pending → Bool} {stack : List Pending}
    {output : List Entry} {fault : Fault} :
    releaseWhile test stack output = .error fault ↔
      ∃ above top below, stack = above ++ top :: below ∧
        (∀ p ∈ above, test p ∧ p.asEntry.isSome) ∧ test top ∧ top.release = .error fault := by
  induction stack generalizing output with
  | nil => simp [releaseWhile]
  | cons top below ih =>
    rw [releaseWhile]
    constructor
    · intro h
      split at h
      next htop =>
        split at h
        next entry hrelease =>
          obtain ⟨above, p, below, rfl, habove, hp⟩ := ih.mp h
          have hentry : top.asEntry.isSome := by rw [Pending.release_eq_ok_iff.mp hrelease]; rfl
          exact ⟨top :: above, p, below, rfl, List.forall_mem_cons.mpr ⟨⟨htop, hentry⟩, habove⟩, hp⟩
        next fault' hrelease =>
          cases h
          exact ⟨[], top, below, rfl, List.forall_mem_nil _, htop, hrelease⟩
      next => cases h
    · rintro ⟨above, p, below', hstack, habove, hp, hrelease⟩
      cases above with
      | nil =>
        obtain ⟨rfl, rfl⟩ := List.cons.inj hstack
        rw [if_pos hp, hrelease]
      | cons q above =>
        obtain ⟨rfl, rfl⟩ := List.cons.inj hstack
        obtain ⟨⟨htop, hentry⟩, habove⟩ := List.forall_mem_cons.mp habove
        obtain ⟨entry, hentry⟩ := Option.isSome_iff_exists.mp hentry
        rw [if_pos htop, Pending.release_eq_ok_iff.mpr hentry]
        exact ih.mpr ⟨above, p, below', rfl, habove, hp, hrelease⟩

namespace Builder

variable {v : Vocabulary} {b b' : Builder} {offset : Nat} {l : Lexeme}

/-- How a builder can take a lexeme that stands at `offset`. -/
inductive Takes (v : Vocabulary) (b : Builder) (offset : Nat) : Lexeme → Builder → Prop
  /-- An operator behind an operand: it releases what yields to it. -/
  | operator {mark : Mark} (hb : b.afterOperand = true) :
    Takes v b offset (.operator mark)
      { b with
        stack := .operator mark :: b.stack.dropWhile (Pending.yieldsTo mark)
        output := ((b.stack.takeWhile (Pending.yieldsTo mark)).filterMap Pending.asEntry).reverse ++
          b.output }
  /-- An operand: it goes to the output. -/
  | operand {l : Lexeme} (hl : l.isOperand)
    (hv : ∀ bytes, l = .word bytes false → v.isConstant (Lexeme.wordText bytes)) :
    Takes v b offset l (b.emit l.text)
  /-- A function: it waits. -/
  | function {bytes : List UInt8} (hv : v.isFunction (Lexeme.wordText bytes)) :
    Takes v b offset (.word bytes true) (b.push (.function (Lexeme.wordText bytes)))
  /-- An opening parenthesis: it waits. -/
  | openParen : Takes v b offset .openParen (b.push (.openParen offset))
  /-- A closing parenthesis: it releases all down to its partner. -/
  | closeParen {opened : Nat} {above below : List Pending}
    (hstack : b.stack = above ++ .openParen opened :: below)
    (habove : ∀ p ∈ above, p.asEntry.isSome) :
    Takes v b offset .closeParen
      { b with
        stack := below
        output := (above.filterMap Pending.asEntry).reverse ++ b.output }

theorem pushOperator_eq (b : Builder) (mark : Mark) :
    b.pushOperator mark = .ok { b with
      stack := .operator mark :: b.stack.dropWhile (Pending.yieldsTo mark)
      output := ((b.stack.takeWhile (Pending.yieldsTo mark)).filterMap Pending.asEntry).reverse ++
        b.output } := by
  have hyields : ∀ p ∈ b.stack.takeWhile (Pending.yieldsTo mark), p.asEntry.isSome :=
    fun p hp => Pending.isSome_asEntry_of_yieldsTo (List.mem_takeWhile_imp hp)
  rw [pushOperator, releaseWhile_eq_ok b.output hyields]

theorem isOpenParen_eq_false {p : Pending} (h : p.asEntry.isSome) : p.isOpenParen = false := by
  rcases p with (op | _) | name | offset <;> first | rfl | cases h

/-- A closing parenthesis finds the open one nearest to the top. -/
theorem closeParen_eq_ok_iff : b.closeParen offset = .ok b' ↔
    ∃ opened above below, b.stack = above ++ .openParen opened :: below ∧
      (∀ p ∈ above, p.asEntry.isSome) ∧
      b' = { b with
        stack := below
        output := (above.filterMap Pending.asEntry).reverse ++ b.output } := by
  constructor
  · intro h
    unfold closeParen at h
    split at h
    next top below output hrelease =>
      obtain ⟨habove, hstack, rfl⟩ := releaseWhile_eq_ok_iff.mp hrelease
      -- the release has stopped in front of an open parenthesis
      have htop := List.head?_dropWhile_not (fun p : Pending => !p.isOpenParen) b.stack
      rw [← hstack] at htop
      simp only [List.head?_cons] at htop
      rcases top with (op | _) | name | opened <;> simp only [Pending.isOpenParen] at htop
      · cases htop
      · cases htop
      · cases htop
      cases h
      refine ⟨opened, _, below, ?_, habove, rfl⟩
      rw [hstack, List.takeWhile_append_dropWhile]
    next => cases h
    next => cases h
  · rintro ⟨opened, above, below, hstack, habove, rfl⟩
    have hpass : ∀ p ∈ above, !p.isOpenParen := fun p hp => by
      rw [isOpenParen_eq_false (habove p hp)]
      rfl
    have hstop : ∀ p ∈ (Pending.openParen opened :: below).head?, (!p.isOpenParen) = false := by
      simp [Pending.isOpenParen]
    obtain ⟨htake, hdrop⟩ := span_append hpass hstop
    rw [← hstack] at htake hdrop
    rw [closeParen, releaseWhile_eq_ok b.output (by rwa [htake]), htake, hdrop]

/-- The builder takes what `Takes` allows, and nothing else. -/
theorem take_eq_ok_iff : b.take v offset l = .ok b' ↔ Takes v b offset l b' := by
  constructor
  · intro h
    unfold take at h
    split at h
    next mark =>
      split at h
      next hb =>
        rw [pushOperator_eq] at h
        cases h
        exact .operator hb
      next => cases h
    next => cases h; exact .operand rfl (by simp)
    next => cases h; exact .operand rfl (by simp)
    next => cases h; exact .operand rfl (by simp)
    next => cases h; exact .openParen
    next =>
      obtain ⟨opened, above, below, hstack, habove, rfl⟩ := closeParen_eq_ok_iff.mp h
      exact .closeParen hstack habove
    next => cases h
    next bytes =>
      dsimp only at h
      split at h
      next hv => cases h; exact .function hv
      next => cases h
    next bytes =>
      dsimp only at h
      split at h
      next hv =>
        cases h
        refine .operand rfl fun bytes' hbytes => ?_
        cases hbytes
        exact hv
      next => cases h
    next => cases h
  · intro h
    cases h with
    | operator hb => rw [take, if_pos hb, pushOperator_eq]
    | operand hl hv =>
      cases l with
      | number | quoted | reference => rfl
      | word bytes call =>
        cases call with
        | true => cases hl
        | false =>
          rw [take, if_pos (hv bytes rfl)]
          rfl
      | operator | openParen | closeParen | dot | symbol => cases hl
    | function hv => simp [take, hv]
    | openParen => rfl
    | closeParen hstack habove =>
      exact closeParen_eq_ok_iff.mpr ⟨_, _, _, hstack, habove, rfl⟩

/-! ### Runs -/

theorem step_eq_ok_iff {p : Piece} : b.step v p = .ok b' ↔
    ∃ after, Takes v b (b.offset + p.gap.length) p.lexeme after ∧
      b' = { after with
        offset := b.offset + p.bytes.length
        afterOperand := p.lexeme.endsOperand } := by
  unfold step
  constructor
  · intro h
    split at h
    next after hafter =>
      cases h
      exact ⟨after, take_eq_ok_iff.mp hafter, rfl⟩
    next => cases h
  · rintro ⟨after, hafter, rfl⟩
    rw [take_eq_ok_iff.mpr hafter]

theorem step_of_takes {p : Piece} (hp : p.lexeme = l)
    (h : Takes v b (b.offset + p.gap.length) l b') :
    b.step v p = .ok { b' with
      offset := b.offset + p.bytes.length
      afterOperand := l.endsOperand } := by
  rw [← hp] at h ⊢
  exact step_eq_ok_iff.mpr ⟨b', h, rfl⟩

theorem run_cons {p : Piece} {ps : List Piece} : b.run v (p :: ps) = .ok b' ↔
    ∃ after, b.step v p = .ok after ∧ after.run v ps = .ok b' := by
  rw [run]
  cases b.step v p <;> simp

/-- Pieces are taken one run after the other. -/
theorem run_append (ps qs : List Piece) : b.run v (ps ++ qs) = .ok b' ↔
    ∃ between, b.run v ps = .ok between ∧ between.run v qs = .ok b' := by
  induction ps generalizing b with
  | nil => simp [run]
  | cons p ps ih =>
    rw [List.cons_append, run, run]
    cases b.step v p with
    | ok after => exact ih
    | error fault => simp

theorem run_singleton {p : Piece} : b.run v [p] = .ok b' ↔ b.step v p = .ok b' := by
  rw [run_cons]
  simp [run]

/-- What is kept by every step, as more and more pieces are taken, is kept by a run. -/
theorem run_induction {P : List Piece → Builder → Prop}
    (hstep : ∀ ps b p b', P ps b → b.step v p = .ok b' → P (ps ++ [p]) b') {ps qs : List Piece}
    (hb : P ps b) (h : b.run v qs = .ok b') : P (ps ++ qs) b' := by
  induction qs generalizing ps b with
  | nil =>
    cases h
    rwa [List.append_nil]
  | cons q qs ih =>
    obtain ⟨after, hafter, hrun⟩ := run_cons.mp h
    have hrest := ih (hstep ps b q after hb hafter) hrun
    rwa [List.append_assoc] at hrest

/-- A run fails at the first piece that is not taken. -/
theorem run_eq_error_iff {ps : List Piece} {fault : Fault} : b.run v ps = .error fault ↔
    ∃ before p after front, ps = before ++ p :: after ∧ b.run v before = .ok front ∧
      front.step v p = .error fault := by
  induction ps generalizing b with
  | nil => simp [run]
  | cons p ps ih =>
    rw [run]
    constructor
    · intro h
      split at h
      next b₁ hstep =>
        obtain ⟨before, q, after, front, rfl, hrun, hq⟩ := ih.mp h
        exact ⟨p :: before, q, after, front, rfl, run_cons.mpr ⟨b₁, hstep, hrun⟩, hq⟩
      next fault' hstep =>
        cases h
        exact ⟨[], p, ps, b, rfl, rfl, hstep⟩
    · rintro ⟨before, q, after, front, hps, hrun, hq⟩
      cases before with
      | nil =>
        obtain ⟨rfl, rfl⟩ := List.cons.inj hps
        cases hrun
        rw [hq]
      | cons p' before =>
        obtain ⟨rfl, rfl⟩ := List.cons.inj hps
        obtain ⟨b₁, hstep, hrun⟩ := run_cons.mp hrun
        rw [hstep]
        exact ih.mpr ⟨before, q, after, front, rfl, hrun, hq⟩

/-- A formula can end if all that waits can be released, and if anything is put out
at all. -/
theorem finish_eq_ok_iff {length : Nat} {p : Postfix} : b.finish length = .ok p ↔
    (∀ q ∈ b.stack, q.asEntry.isSome) ∧ p.entries ≠ [] ∧
      p.entries = b.output.reverse ++ b.stack.filterMap Pending.asEntry := by
  have hall : b.stack.takeWhile (fun _ => true) = b.stack := by simp
  constructor
  · intro h
    unfold finish at h
    split at h
    next => cases h
    next stack entry output hrelease =>
      obtain ⟨hstack, -, houtput⟩ := releaseWhile_eq_ok_iff.mp hrelease
      rw [hall] at hstack houtput
      cases h
      refine ⟨hstack, by simp, ?_⟩
      rw [houtput]
      simp
    next => cases h
  · rintro ⟨hstack, hne, hentries⟩
    rw [finish, releaseWhile_eq_ok b.output (by rwa [hall]), hall]
    cases houtput : (b.stack.filterMap Pending.asEntry).reverse ++ b.output with
    | nil => simp_all
    | cons entry output =>
      have hp : p.entries = (entry :: output).reverse := by
        rw [← houtput, hentries]
        simp
      change Except.ok (⟨(entry :: output).reverse⟩ : Postfix) = .ok p
      rw [← hp]

end Builder

end PathFormula
