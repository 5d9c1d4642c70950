import Mathlib.Order.Bounds.Basic
import PathFormula.Proofs.Reads

/-!
# Balanced parentheses

Which parentheses of a formula have a partner is said by what stands between the two: it is
balanced.  A balanced row of pieces has a partner for each parenthesis in it, and one that
could have two partners would hold a balanced part within a balanced part without end.

A row of pieces in which every closing parenthesis has a partner is balanced, or it has
come that far by opening parentheses one after the other, with something balanced behind
each of them.  Those are the ones that have no partner, and the places of them are all that
has to be kept of the row to go on from there.

## Main definitions

* `Piece.place before p` — the offset of the lexeme of `p` behind the pieces `before`.
* `IsBalanced ps` — every parenthesis has a partner.
* `IsUnopened ps o`, `IsUnclosed ps o` — at the offset `o` stands a closing parenthesis, or an
  opening one, that has no partner.
* `Leaves opened ps` — the pieces leave the parentheses at the offsets `opened` open.

## Main results

* `IsBalanced.exists_closing`, `IsBalanced.exists_opening` — partners in a balanced row.
* `Leaves.mem_iff`, `Leaves.pairwise` — what is left open is what is never closed, from back
  to front.
* `Leaves.isGreatest`, `IsBalanced.isLeast` — the last parenthesis that is not closed, and the
  first that was not opened.
-/

namespace PathFormula

/-- Where a list can be cut at two places, one of them comes first, or they are the same. -/
theorem append_cons_cases {α : Type} {as bs cs ds : List α} {a d : α}
    (h : as ++ a :: bs = cs ++ d :: ds) :
    (∃ mid, as = cs ++ d :: mid ∧ ds = mid ++ a :: bs) ∨ (as = cs ∧ a = d ∧ bs = ds) ∨
      ∃ mid, cs = as ++ a :: mid ∧ bs = mid ++ d :: ds := by
  rcases List.append_eq_append_iff.mp h with ⟨mid, rfl, hmid⟩ | ⟨mid, rfl, hmid⟩
  · cases mid with
    | nil =>
      obtain ⟨rfl, rfl⟩ := List.cons.inj hmid
      exact .inr (.inl ⟨(List.append_nil _).symm, rfl, rfl⟩)
    | cons x mid =>
      obtain ⟨rfl, rfl⟩ := List.cons.inj hmid
      exact .inr (.inr ⟨mid, rfl, rfl⟩)
  · cases mid with
    | nil =>
      obtain ⟨rfl, rfl⟩ := List.cons.inj hmid
      exact .inr (.inl ⟨List.append_nil _, rfl, rfl⟩)
    | cons x mid =>
      obtain ⟨rfl, rfl⟩ := List.cons.inj hmid
      exact .inl ⟨mid, rfl, rfl⟩

/-- The offset of the lexeme of a piece that stands behind others. -/
def Piece.place (before : List Piece) (p : Piece) : Nat :=
  (Piece.flatten before).length + p.gap.length

/-- Every parenthesis has a partner, and what stands between two partners is balanced. -/
inductive IsBalanced : List Piece → Prop
  | nil : IsBalanced []
  /-- A piece that is no parenthesis. -/
  | other {p : Piece} {ps : List Piece} (hopen : p.lexeme ≠ .openParen)
    (hclose : p.lexeme ≠ .closeParen) (h : IsBalanced ps) : IsBalanced (p :: ps)
  /-- Two partners. -/
  | parens {p q : Piece} {inner outer : List Piece} (hp : p.lexeme = .openParen)
    (hq : q.lexeme = .closeParen) (hinner : IsBalanced inner) (houter : IsBalanced outer) :
    IsBalanced (p :: (inner ++ q :: outer))

/-- A closing parenthesis stands at the offset, and no opening one is its partner. -/
inductive IsUnopened (ps : List Piece) : Nat → Prop
  | intro {before after : List Piece} {q : Piece} (hps : ps = before ++ q :: after)
    (hq : q.lexeme = .closeParen) (h : ∀ outer p inner, before = outer ++ p :: inner →
      p.lexeme = .openParen → ¬ IsBalanced inner) : IsUnopened ps (Piece.place before q)

/-- An opening parenthesis stands at the offset, and no closing one is its partner. -/
inductive IsUnclosed (ps : List Piece) : Nat → Prop
  | intro {before after : List Piece} {p : Piece} (hps : ps = before ++ p :: after)
    (hp : p.lexeme = .openParen) (h : ∀ inner q outer, after = inner ++ q :: outer →
      q.lexeme = .closeParen → ¬ IsBalanced inner) : IsUnclosed ps (Piece.place before p)

/-- The pieces leave parentheses open at the offsets, the innermost first. -/
inductive Leaves : List Nat → List Piece → Prop
  | balanced {ps : List Piece} (h : IsBalanced ps) : Leaves [] ps
  | opened {opened : List Nat} {front inner : List Piece} {p : Piece} (h : Leaves opened front)
    (hp : p.lexeme = .openParen) (hinner : IsBalanced inner) :
    Leaves (Piece.place front p :: opened) (front ++ p :: inner)

variable {ps qs before after : List Piece} {p q : Piece} {opened : List Nat} {o : Nat}

/-! ### Partners -/

namespace IsBalanced

theorem append (h : IsBalanced ps) (h' : IsBalanced qs) : IsBalanced (ps ++ qs) := by
  induction h with
  | nil => exact h'
  | other hopen hclose _ ih => exact .other hopen hclose ih
  | parens hp hq hinner _ _ ih => simpa using IsBalanced.parens hp hq hinner ih

/-- In a balanced row an opening parenthesis is closed. -/
theorem exists_closing (h : IsBalanced (before ++ p :: after)) (hp : p.lexeme = .openParen) :
    ∃ inner q outer, after = inner ++ q :: outer ∧ q.lexeme = .closeParen ∧ IsBalanced inner := by
  generalize hps : before ++ p :: after = ps at h
  induction h generalizing before after with
  | nil => simp at hps
  | other hopen hclose _ ih =>
    cases before with
    | nil =>
      obtain ⟨rfl, rfl⟩ := List.cons.inj hps
      exact absurd hp hopen
    | cons p' before =>
      obtain ⟨rfl, hrest⟩ := List.cons.inj hps
      exact ih hrest
  | @parens p' q inner outer _ hq hinner _ ihinner ihouter =>
    cases before with
    | nil =>
      obtain ⟨rfl, rfl⟩ := List.cons.inj hps
      exact ⟨inner, q, outer, rfl, hq, hinner⟩
    | cons p'' before =>
      obtain ⟨rfl, hrest⟩ := List.cons.inj hps
      rcases append_cons_cases hrest with ⟨mid, rfl, rfl⟩ | ⟨rfl, rfl, rfl⟩ | ⟨mid, rfl, rfl⟩
      · exact ihouter rfl
      · rw [hp] at hq
        cases hq
      · obtain ⟨inner, q', outer', rfl, hq', hinner⟩ := ihinner rfl
        exact ⟨inner, q', outer' ++ q :: outer, by simp, hq', hinner⟩

/-- In a balanced row a closing parenthesis has been opened. -/
theorem exists_opening (h : IsBalanced (before ++ q :: after)) (hq : q.lexeme = .closeParen) :
    ∃ outer p inner, before = outer ++ p :: inner ∧ p.lexeme = .openParen ∧ IsBalanced inner := by
  generalize hps : before ++ q :: after = ps at h
  induction h generalizing before after with
  | nil => simp at hps
  | @other p' ps _ hclose _ ih =>
    cases before with
    | nil =>
      obtain ⟨rfl, rfl⟩ := List.cons.inj hps
      exact absurd hq hclose
    | cons p'' before =>
      obtain ⟨rfl, hrest⟩ := List.cons.inj hps
      obtain ⟨outer, p, inner, rfl, hp, hinner⟩ := ih hrest
      exact ⟨p'' :: outer, p, inner, rfl, hp, hinner⟩
  | @parens p' q' inner outer hp' _ hinner _ ihinner ihouter =>
    cases before with
    | nil =>
      obtain ⟨rfl, rfl⟩ := List.cons.inj hps
      rw [hq] at hp'
      cases hp'
    | cons p'' before =>
      obtain ⟨rfl, hrest⟩ := List.cons.inj hps
      rcases append_cons_cases hrest with ⟨mid, rfl, rfl⟩ | ⟨rfl, rfl, rfl⟩ | ⟨mid, rfl, rfl⟩
      · obtain ⟨front, p, back, rfl, hp, hback⟩ := ihouter rfl
        exact ⟨p'' :: (inner ++ q' :: front), p, back, by simp, hp, hback⟩
      · exact ⟨[], p'', _, rfl, hp', hinner⟩
      · obtain ⟨front, p, back, rfl, hp, hback⟩ := ihinner rfl
        exact ⟨p'' :: front, p, back, rfl, hp, hback⟩

/-- Behind a balanced row a closing parenthesis has no partner. -/
theorem not_append_closing (h : IsBalanced ps) (hq : q.lexeme = .closeParen) :
    ¬ IsBalanced (ps ++ q :: after) := by
  -- a partner would have another one, with less between the two
  induction hn : ps.length using Nat.strong_induction_on generalizing ps q after with
  | _ n ih =>
    intro h'
    obtain ⟨outer, p, inner, rfl, hp, hinner⟩ := h'.exists_opening hq
    obtain ⟨inner, q', rest, rfl, hq', hinner'⟩ := h.exists_closing hp
    exact ih inner.length (by simp at hn; omega) hinner' hq' rfl hinner

end IsBalanced

/-! ### What is left open -/

theorem Piece.place_lt (before : List Piece) (hp : p.lexeme = .openParen) (after : List Piece) :
    place before p < (flatten (before ++ p :: after)).length := by
  simp [place, bytes, hp, Lexeme.bytes]

/-- Behind a balanced part, an opening parenthesis in front of it is never closed. -/
theorem isUnclosed_append_iff (hp : p.lexeme = .openParen) (hafter : IsBalanced after) :
    IsUnclosed (before ++ p :: after) o ↔ o = Piece.place before p ∨ IsUnclosed before o := by
  constructor
  · rintro @⟨before', after', p', hps, hp', h⟩
    rcases append_cons_cases hps with ⟨mid, rfl, rfl⟩ | ⟨rfl, rfl, rfl⟩ | ⟨mid, rfl, rfl⟩
    · refine .inr ⟨rfl, hp', fun inner q outer hmid hq => h inner q (outer ++ p :: after) ?_ hq⟩
      rw [hmid, List.append_assoc, List.cons_append]
    · exact .inl rfl
    · obtain ⟨inner, q, outer, rfl, hq, hbalanced⟩ := hafter.exists_closing hp'
      exact absurd hbalanced (h inner q outer rfl hq)
  · rintro (rfl | @⟨front, back, p', rfl, hp', h⟩)
    · refine ⟨rfl, hp, fun inner q outer hinner hq hbalanced => ?_⟩
      rw [hinner] at hafter
      exact hbalanced.not_append_closing hq hafter
    · refine ⟨by rw [List.append_assoc, List.cons_append], hp', ?_⟩
      intro inner q outer hinner hq hbalanced
      rcases append_cons_cases hinner with ⟨mid, rfl, rfl⟩ | ⟨rfl, rfl, rfl⟩ | ⟨mid, rfl, rfl⟩
      · exact h inner q mid rfl hq hbalanced
      · rw [hp] at hq
        cases hq
      · -- the partner would also close the parenthesis in between
        obtain ⟨inner, q', rest, rfl, hq', hinner'⟩ := hbalanced.exists_closing hp
        rw [List.append_assoc, List.cons_append] at hafter
        exact hinner'.not_append_closing hq' hafter

namespace Leaves

/-- What is balanced leaves open what was open. -/
theorem append (h : Leaves opened ps) (hqs : IsBalanced qs) : Leaves opened (ps ++ qs) := by
  cases h with
  | balanced h => exact .balanced (h.append hqs)
  | opened h hp hinner =>
    rw [List.append_assoc, List.cons_append]
    exact .opened h hp (hinner.append hqs)

/-- A piece that is no parenthesis leaves open what was open. -/
theorem other (h : Leaves opened ps) (hopen : p.lexeme ≠ .openParen)
    (hclose : p.lexeme ≠ .closeParen) : Leaves opened (ps ++ [p]) :=
  h.append (.other hopen hclose .nil)

/-- An opening parenthesis is left open. -/
theorem opening (h : Leaves opened ps) (hp : p.lexeme = .openParen) :
    Leaves (Piece.place ps p :: opened) (ps ++ [p]) :=
  .opened h hp .nil

/-- A closing parenthesis belongs to the innermost one that is open. -/
theorem closing (h : Leaves (o :: opened) ps) (hq : q.lexeme = .closeParen) :
    Leaves opened (ps ++ [q]) := by
  cases h with
  | @opened _ front inner p h hp hinner =>
    rw [List.append_assoc, List.cons_append]
    exact h.append (.parens hp hq hinner .nil)

/-- What is left open is what is never closed. -/
theorem mem_iff (h : Leaves opened ps) : o ∈ opened ↔ IsUnclosed ps o := by
  induction h with
  | balanced h =>
    refine iff_of_false List.not_mem_nil ?_
    rintro @⟨before, after, p, rfl, hp, hnot⟩
    obtain ⟨inner, q, outer, rfl, hq, hinner⟩ := h.exists_closing hp
    exact hnot inner q outer rfl hq hinner
  | opened _ hp hinner ih => rw [List.mem_cons, isUnclosed_append_iff hp hinner, ih]

theorem lt_length (h : Leaves opened ps) (ho : o ∈ opened) : o < (Piece.flatten ps).length := by
  obtain @⟨before, after, p, rfl, hp, -⟩ := h.mem_iff.mp ho
  exact Piece.place_lt before hp after

/-- What is left open stands from back to front. -/
theorem pairwise (h : Leaves opened ps) : opened.Pairwise (· > ·) := by
  induction h with
  | balanced => exact .nil
  | @opened opened front inner p h hp _ ih =>
    refine .cons (fun o ho => ?_) ih
    exact Nat.lt_of_lt_of_le (h.lt_length ho) (Nat.le_add_right _ _)

/-- The innermost one that is left open is the last one that is not closed. -/
theorem isGreatest (h : Leaves (o :: opened) ps) : IsGreatest {o | IsUnclosed ps o} o := by
  refine ⟨h.mem_iff.mp List.mem_cons_self, fun o' ho' => ?_⟩
  rcases List.mem_cons.mp (h.mem_iff.mpr ho') with rfl | ho'
  · exact Nat.le_refl _
  · exact Nat.le_of_lt (List.rel_of_pairwise_cons h.pairwise ho')

/-- Where parentheses are at most left open, every closing one has been opened. -/
theorem not_isUnopened (h : Leaves opened ps) : ¬ IsUnopened ps o := by
  rintro @⟨before, after, q, hps, hq, hnot⟩
  induction h generalizing before after with
  | balanced h =>
    obtain ⟨outer, p, inner, rfl, hp, hinner⟩ := (hps ▸ h).exists_opening hq
    exact hnot outer p inner rfl hp hinner
  | @opened opened front inner p _ hp hinner ih =>
    rcases append_cons_cases hps with ⟨mid, rfl, rfl⟩ | ⟨rfl, rfl, rfl⟩ | ⟨mid, rfl, rfl⟩
    · exact ih rfl hnot
    · rw [hp] at hq
      cases hq
    · obtain ⟨outer, p', inner, rfl, hp', hinner⟩ := hinner.exists_opening hq
      exact hnot (front ++ p :: outer) p' inner (by simp) hp' hinner

end Leaves

/-- Behind a balanced row, a closing parenthesis is the first that was not opened. -/
theorem IsBalanced.isLeast (h : IsBalanced before) (hq : q.lexeme = .closeParen) :
    IsLeast {o | IsUnopened (before ++ q :: after) o} (Piece.place before q) := by
  constructor
  · refine ⟨rfl, hq, ?_⟩
    rintro outer p inner rfl hp hinner
    obtain ⟨inner, q', rest, rfl, hq', hinner'⟩ := h.exists_closing hp
    exact hinner'.not_append_closing hq' hinner
  · rintro o @⟨before', after', q', hps, hq', hnot⟩
    rcases append_cons_cases hps with ⟨mid, rfl, rfl⟩ | ⟨rfl, rfl, rfl⟩ | ⟨mid, rfl, rfl⟩
    · obtain ⟨outer, p, inner, rfl, hp, hinner⟩ := h.exists_opening hq'
      exact absurd hinner (hnot outer p inner rfl hp)
    · exact Nat.le_refl _
    · simp [Piece.place, Piece.bytes]
      omega

end PathFormula
