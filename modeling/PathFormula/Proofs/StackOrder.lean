import Mathlib.Data.List.Chain
import PathFormula.Proofs.Unbalanced

/-!
# The order of the stack

Before a mark is stacked, all that yields to it is released.  So what it comes to lie on is
what does not yield: an operator that binds less tightly, or as tightly if that one groups from
the right, an open parenthesis, or nothing at all.  A function always yields, and no mark lies
on one.  Everything else is stacked on whatever is there, and what is taken away is taken from
the top, so two neighbours on the stack once met the same condition.

A lone equals sign fits in with the operators: it is one of the lowest tier that groups from
the right.

## Main definitions

* `Mark.tier`, `Mark.isRightAssociative` — how a mark binds.
* `Pending.LiesOn` — what may come to lie directly on what.
* `IsOrdered stack` — between two open parentheses, tiers only rise from the bottom to the top.

## Main results

* `Pending.liesOn_iff` — a mark comes to lie on what does not yield to it.
* `Builder.isChain_run` — neighbours on the stack of a builder may lie on each other.
* `Builder.isOrdered_of_run` — **the stack is in order, and its open parentheses are those of
  the formula that are not closed yet.**
-/

namespace PathFormula

namespace Mark

/-- How tightly a mark binds: the equals sign less than any operator. -/
def tier : Mark → Nat
  | operator op => op.tier
  | equals => 0

/-- Whether equal marks in a row group from the right. -/
def isRightAssociative : Mark → Bool
  | operator op => op.isRightAssociative
  | equals => true

end Mark

theorem Operator.tier_pos (op : Operator) : 0 < op.tier := by
  cases op <;> decide

variable {v : Vocabulary} {o : Nat}

namespace Pending

/-- What may come to lie directly on what waits. -/
def LiesOn : Pending → Pending → Prop
  | operator upper, operator lower =>
    lower.tier < upper.tier ∨ lower.tier = upper.tier ∧ lower.isRightAssociative
  | operator _, function _ => False
  | _, _ => True

/-- With the equals sign as an operator of the lowest tier, one rule says which operators are
released. -/
theorem operatorYieldsTo_eq (above mark : Mark) : operatorYieldsTo above mark =
    (mark.tier < above.tier || mark.tier == above.tier && !above.isRightAssociative) := by
  cases above with
  | operator above =>
    cases mark with
    | operator op => rfl
    | equals => simp [operatorYieldsTo, Mark.tier, above.tier_pos]
  | equals => cases mark <;> simp [operatorYieldsTo, Mark.tier, Mark.isRightAssociative]

/-- A mark comes to lie on what does not yield to it. -/
theorem liesOn_iff {mark : Mark} {lower : Pending} :
    LiesOn (operator mark) lower ↔ lower.yieldsTo mark = false := by
  cases lower with
  | operator lower =>
    rw [yieldsTo, operatorYieldsTo_eq, LiesOn]
    cases lower.isRightAssociative <;> simp <;> omega
  | function name => simp [LiesOn, yieldsTo]
  | openParen offset => simp [LiesOn, yieldsTo]

theorem LiesOn.tier_le {upper lower : Mark} (h : LiesOn (operator upper) (operator lower)) :
    lower.tier ≤ upper.tier := by
  rcases h with hlt | ⟨heq, -⟩
  · exact Nat.le_of_lt hlt
  · exact Nat.le_of_eq heq

end Pending

/-- Between two open parentheses, tiers only rise from the bottom of the stack to its top. -/
structure IsOrdered (stack : List Pending) : Prop where
  /-- Of two marks with no open parenthesis in between, the upper one binds at least as
  tightly. -/
  tier_le : ∀ above upper between lower below,
    stack = above ++ .operator upper :: (between ++ .operator lower :: below) →
    (∀ p ∈ between, p.isOpenParen = false) → lower.tier ≤ upper.tier
  /-- Neighbours of the same tier group from the right. -/
  isRightAssociative_of_tier_eq : ∀ above upper lower below,
    stack = above ++ .operator upper :: .operator lower :: below →
    lower.tier = upper.tier → lower.isRightAssociative
  /-- No mark lies directly on a function. -/
  ne_function : ∀ above mark name below,
    stack ≠ above ++ .operator mark :: .function name :: below

/-- What may lie on each other, neighbour by neighbour, is in order. -/
theorem isOrdered_of_isChain {stack : List Pending} (h : stack.IsChain Pending.LiesOn) :
    IsOrdered stack := by
  have hpair {above below : List Pending} {upper lower : Pending}
      (hstack : stack = above ++ upper :: lower :: below) : upper.LiesOn lower :=
    List.isChain_iff_forall_rel_of_append_cons_cons.mp h hstack
  refine ⟨?_, ?_, ?_⟩
  · intro above upper between lower below hstack hbetween
    -- below a mark lies a mark or an open parenthesis, and so down to the lower one
    induction between generalizing above upper with
    | nil => exact (hpair hstack).tier_le
    | cons p between ih =>
      obtain ⟨hp, hrest⟩ := List.forall_mem_cons.mp hbetween
      have hlies := hpair hstack
      cases p with
      | operator mark =>
        have hle : lower.tier ≤ mark.tier :=
          ih (above ++ [.operator upper]) mark (by simpa using hstack) hrest
        exact Nat.le_trans hle hlies.tier_le
      | function name => exact hlies.elim
      | openParen offset => cases hp
  · intro above upper lower below hstack htier
    rcases hpair hstack with hlt | ⟨-, hright⟩
    · exact absurd htier (Nat.ne_of_lt hlt)
    · exact hright
  · intro above mark name below hstack
    exact hpair hstack

namespace Builder

variable {b b' : Builder} {offset : Nat} {l : Lexeme} {ps : List Piece}

/-- Whatever is taken, neighbours on the stack may lie on each other. -/
theorem Takes.isChain (h : Takes v b offset l b') (hb : b.stack.IsChain Pending.LiesOn) :
    b'.stack.IsChain Pending.LiesOn := by
  cases h with
  | @operator mark hafter =>
    refine .cons (hb.suffix (List.dropWhile_suffix _)) fun lower hlower => ?_
    have hhead := List.head?_dropWhile_not (Pending.yieldsTo mark) b.stack
    rw [hlower] at hhead
    exact Pending.liesOn_iff.mpr hhead
  | operand hl hv => exact hb
  | function hv => exact hb.cons fun lower hlower => trivial
  | openParen => exact hb.cons fun lower hlower => trivial
  | closeParen hstack habove =>
    rw [hstack] at hb
    exact hb.right_of_append.tail

theorem isChain_step {p : Piece} (hb : b.stack.IsChain Pending.LiesOn)
    (h : b.step v p = .ok b') : b'.stack.IsChain Pending.LiesOn := by
  obtain ⟨after, htakes, rfl⟩ := step_eq_ok_iff.mp h
  exact htakes.isChain hb

/-- In a whole run neighbours on the stack come to lie on each other only if they may. -/
theorem isChain_run (hb : b.stack.IsChain Pending.LiesOn) (h : b.run v ps = .ok b') :
    b'.stack.IsChain Pending.LiesOn :=
  @run_induction v b b' (fun _ b => b.stack.IsChain Pending.LiesOn)
    (fun _ _ _ _ hb hstep => isChain_step hb hstep) [] ps hb h

end Builder

/-- A parenthesis that the first pieces of a text leave open stands in the text. -/
theorem IsUnclosed.getElem? {s : String} {ps after : List Piece}
    (hs : (Reading.ofText s).pieces = ps ++ after) (h : IsUnclosed ps o) :
    (Utf8.bytes s)[o]? = some '('.toUInt8 := by
  obtain ⟨last, left, hreads, -⟩ := Reading.exists_reads_ofText s
  obtain @⟨front, back, p, rfl, hp, -⟩ := h
  have hbytes := hreads.bytes_append
  rw [hs] at hbytes
  have hat : Utf8.bytes s = (Piece.flatten front ++ p.gap) ++ '('.toUInt8 ::
      (Piece.flatten back ++ Piece.flatten after ++ left) := by
    rw [← hbytes]
    simp [Piece.bytes, hp, Lexeme.bytes]
  rw [hat, Piece.place, ← List.length_append, List.getElem?_append_right (Nat.le_refl _),
    Nat.sub_self, List.getElem?_cons_zero]

/-- **The stack is in order, and its open parentheses are those of the formula that are not
closed yet.** -/
theorem Builder.isOrdered_of_run {b : Builder} {s : String} {before after : List Piece}
    (hs : (Reading.ofText s).pieces = before ++ after) (hrun : start.run v before = .ok b) :
    IsOrdered b.stack ∧
      (b.stack.filterMap Pending.opened?).Pairwise (· > ·) ∧
      (∀ o, o ∈ b.stack.filterMap Pending.opened? ↔ IsUnclosed before o) ∧
      ∀ o ∈ b.stack.filterMap Pending.opened?, (Utf8.bytes s)[o]? = some '('.toUInt8 := by
  have hfollows : Follows before b := follows_start.run hrun
  refine ⟨isOrdered_of_isChain (isChain_run .nil hrun), hfollows.leaves.pairwise,
    fun o => hfollows.leaves.mem_iff, fun o ho => ?_⟩
  exact (hfollows.leaves.mem_iff.mp ho).getElem? hs

/-- Marks on both sides of an open parenthesis, and a function whose argument is complete. -/
theorem Builder.isOrdered_of_run_powers :
    IsOrdered [.function "sqrt", .operator .equals, .openParen 14,
        .operator (.operator .power), .operator (.operator .power),
        .operator (.operator .plus)] ∧
      IsUnclosed (Reading.ofText "1 + 2 ** 3 ** (4 = sqrt(5)").pieces 14 := by
  have hrun : start.run .standard (Reading.ofText "1 + 2 ** 3 ** (4 = sqrt(5)").pieces =
      .ok ⟨26, [.function "sqrt", .operator .equals, .openParen 14,
          .operator (.operator .power), .operator (.operator .power),
          .operator (.operator .plus)],
        [.operand "5", .operand "4", .operand "3", .operand "2", .operand "1"], true⟩ := by
    decide +kernel
  obtain ⟨hordered, -, hunclosed, -⟩ := isOrdered_of_run (List.append_nil _).symm hrun
  exact ⟨hordered, (hunclosed 14).mp (by decide)⟩

end PathFormula
