import PathFormula.Proofs.Acceptance
import PathFormula.Proofs.Balance
import PathFormula.Proofs.Blame
import PathFormula.Proofs.BrokenReference

/-!
# Which parenthesis is to blame

The stack of a builder holds operators, functions and open parentheses, and is drained from
the top.  The open parentheses on it are, with their offsets, those of the pieces taken so
far that are not closed yet: only a closing parenthesis takes one away, and it takes the
innermost.  So a closing parenthesis is refused where all in front of it is balanced, and at
the end of the formula the topmost open one is refused, which is the last of those that
nothing closes.

A path reference has brackets of its own.  They are looked after while it is read, and it is
refused before anything of it gets on the stack.

## Main definitions

* `IsMismatch s o` — at the offset `o` a bracket in a reference is closed by one of the other
  kind.
* `IsOrderly v s` — the text has nothing wrong with it but perhaps its parentheses.
* `Builder.Follows ps b` — the builder has kept the places of what the pieces leave open.

## Main results

* `Builder.Follows.run` — the open parentheses on the stack are those that are left open.
* `Builder.exists_isBalanced_of_run` — where a run refuses a closing parenthesis.
* `Postfix.ofFormula_unbalanced` — **unbalanced parentheses are reported where they are.**
-/

namespace PathFormula

open Literal

variable {v : Vocabulary} {o : Nat}

/-! ### References -/

namespace Cursor

variable {d : UInt8} {strict : Bool} {s : State} {passed rest : List UInt8} {c : Cursor}

/-- Numbers have no brackets. -/
theorem readNumberFrom_ne_unbalanced :
    readNumberFrom strict s passed rest ≠ .error (.unbalancedParens o) c := by
  have hend {c' : Cursor} {last : State} :
      endNumber c' last ≠ .error (.unbalancedParens o) c := by
    unfold endNumber
    split <;> rintro ⟨⟩
  have hstop {c' : Cursor} {last : State} :
      stopNumber strict c' last ≠ .error (.unbalancedParens o) c := by
    unfold stopNumber
    split
    · rintro ⟨⟩
    · exact hend
  fun_induction readNumberFrom strict s passed rest with
  | case1 => exact hend
  | case2 | case3 => rintro ⟨⟩
  | case4 | case6 => exact hstop
  | case5 _ _ _ _ _ _ _ _ _ ih => exact ih

/-- Nor have strings. -/
theorem readStringFrom_ne_unbalanced :
    readStringFrom d s passed rest ≠ .error (.unbalancedParens o) c := by
  fun_induction readStringFrom d s passed rest with
  | case1 | case3 => rintro ⟨⟩
  | case2 _ _ _ _ _ _ ih => exact ih
  | case4 =>
    unfold stringFault
    split <;> rintro ⟨⟩

end Cursor

/-- Inside the reference that the reading of a text has stopped at, a closing bracket stands
where the innermost open one is of the other kind. -/
inductive IsMismatch (s : String) : Nat → Prop
  | intro {gap front after : List UInt8} {root : UInt8} {kind innermost : Bracket}
    {outer : List Bracket}
    (hs : Utf8.bytes s = Piece.flatten (Reading.ofText s).pieces ++
      (gap ++ (front ++ kind.closer :: after)))
    (hgap : Byte.IsGap gap) (hroot : front.head? = some root)
    (hroot' : root = '$'.toUInt8 ∨ root = '@'.toUInt8)
    (hopens : Opens (innermost :: outer) front) (hkind : kind ≠ innermost) :
    IsMismatch s ((Piece.flatten (Reading.ofText s).pieces).length + gap.length + front.length)

/-- Where a bracket is at fault, others are open in front of it. -/
theorem Cursor.exists_opens_of_breaksReference {bytes : List UInt8} {c : Cursor}
    (h : (ofBytes bytes).BreaksReference (.unbalancedParens o) c) :
    ∃ front kind innermost outer after, bytes = front ++ kind.closer :: after ∧
      front.length = o ∧ Opens (innermost :: outer) front ∧ kind ≠ innermost := by
  generalize hfault : Fault.unbalancedParens o = fault at h
  cases h with
  | @bracket front kind innermost outer c hpasses hopens hc hkind =>
    cases hfault
    obtain ⟨after, hafter⟩ := List.head?_eq_some_iff.mp hc
    have hbytes := hpasses.rest_eq
    rw [hafter] at hbytes
    refine ⟨front, kind, innermost, outer, after, hbytes, ?_, hopens, hkind⟩
    rw [position, hpasses.passed_eq]
    simp [ofBytes]
  | @key front nest d fault key c hpasses hopens hd hkey hread =>
    subst hfault
    obtain ⟨passed, rest⟩ := key
    obtain ⟨more, rfl⟩ := List.head?_eq_some_iff.mp hkey
    rw [readString_cons hd] at hread
    exact absurd hread readStringFrom_ne_unbalanced
  | ended => cases hfault

theorem Opens.ne_nil {kind : Bracket} {nest : List Bracket} {front : List UInt8}
    (h : Opens (kind :: nest) front) : front ≠ [] := by
  cases h with
  | inside => simp

/-- A lexeme with a bracket at fault is a reference that breaks there. -/
theorem Lexeme.exists_opens_of_read {afterOperand : Bool} {b : UInt8} {rest : List UInt8}
    (h : read afterOperand b rest = .error (.unbalancedParens o)) :
    (b = '$'.toUInt8 ∨ b = '@'.toUInt8) ∧ ∃ front kind innermost outer after,
      b :: rest = front ++ kind.closer :: after ∧ front.length = o ∧
        Opens (innermost :: outer) front ∧ kind ≠ innermost := by
  have hnumber : readNumber b rest ≠ .error (.unbalancedParens o) := by
    intro h
    obtain ⟨c, hc⟩ := exists_of_ofOutcome_eq_error h
    exact Cursor.readNumberFrom_ne_unbalanced hc
  unfold read at h
  cases hb : Lead.ofByte b with
  | sign =>
    cases afterOperand with
    | true => simp [hb, readOperator] at h
    | false => exact absurd (by simpa [hb] using h) hnumber
  | digit => exact absurd (by simpa [hb] using h) hnumber
  | quote =>
    simp only [hb] at h
    obtain ⟨c, hc⟩ := exists_of_ofOutcome_eq_error h
    rw [Cursor.ofBytes, Cursor.readString_cons ((Lead.ofByte_eq_iff .quote b).mp hb)] at hc
    exact absurd hc Cursor.readStringFrom_ne_unbalanced
  | root =>
    simp only [hb] at h
    obtain ⟨c, hc⟩ := exists_of_ofOutcome_eq_error h
    rw [Cursor.readReference_of_root (Lead.eq_root hb) rfl] at hc
    have houtside : Opens [] [] := .outside (.nil false)
    have hbreaks := Cursor.breaksReference_of_readItemsFrom houtside hc
    exact ⟨Lead.eq_root hb, Cursor.exists_opens_of_breaksReference hbreaks⟩
  | operator | dot | openParen | closeParen | word | symbol =>
    simp [hb, readOperator, readWord, readSymbol] at h

/-- A reading ends with a bracket at fault only inside a reference. -/
theorem Reading.isMismatch_of_ending {s : String}
    (h : (ofText s).ending = .error (.unbalancedParens o)) : IsMismatch s o := by
  obtain ⟨last, left, hreads, hstop⟩ := exists_reads_ofText s
  have hbytes := hreads.bytes_append
  rw [h] at hstop
  generalize hending : (Except.error (.unbalancedParens o) : Except Fault (List UInt8)) = ending
    at hstop
  cases hstop with
  | space => cases hending
  | @fault gap rest b fault hgap hb hl =>
    cases fault with
    | unbalancedParens n =>
      cases hending
      obtain ⟨hroot, front, kind, innermost, outer, after, hrest, rfl, hopens, hkind⟩ :=
        Lexeme.exists_opens_of_read hl
      rw [hrest] at hbytes
      refine .intro hbytes.symm hgap ?_ hroot hopens hkind
      obtain ⟨x, more, rfl⟩ := List.exists_cons_of_ne_nil hopens.ne_nil
      rw [(List.cons.inj hrest).1]
      rfl
    | _ => cases hending

/-! ### What is left open on the stack -/

/-- The offset of an open parenthesis. -/
def Pending.opened? : Pending → Option Nat
  | openParen offset => some offset
  | _ => none

theorem Pending.opened?_eq_none {p : Pending} (h : p.asEntry.isSome) : p.opened? = none := by
  rcases p with (op | _) | name | offset <;> first | rfl | cases h

/-- What can be released holds no open parenthesis. -/
theorem Pending.filterMap_opened? {stack : List Pending} (h : ∀ p ∈ stack, p.asEntry.isSome) :
    stack.filterMap opened? = [] :=
  List.filterMap_eq_nil_iff.mpr fun p hp => opened?_eq_none (h p hp)

namespace Builder

variable {b b' : Builder} {ps qs : List Piece} {p : Piece} {offset : Nat} {l : Lexeme}

/-- The builder has taken the pieces, and kept the places of what they leave open. -/
structure Follows (ps : List Piece) (b : Builder) : Prop where
  offset_eq : b.offset = (Piece.flatten ps).length
  leaves : Leaves (b.stack.filterMap Pending.opened?) ps

theorem follows_start : Follows [] start := ⟨rfl, .balanced .nil⟩

/-- Only parentheses change what is open on the stack. -/
theorem Takes.leaves (h : Takes v b (Piece.place ps p) p.lexeme b')
    (hb : Leaves (b.stack.filterMap Pending.opened?) ps) :
    Leaves (b'.stack.filterMap Pending.opened?) (ps ++ [p]) := by
  have other {stack : List Pending} (hopen : p.lexeme ≠ .openParen)
      (hclose : p.lexeme ≠ .closeParen)
      (hstack : stack.filterMap Pending.opened? = b.stack.filterMap Pending.opened?) :
      Leaves (stack.filterMap Pending.opened?) (ps ++ [p]) := by
    rw [hstack]
    exact hb.other hopen hclose
  generalize hl : p.lexeme = l at h other
  cases h with
  | @operator mark hafter =>
    refine other (by rintro ⟨⟩) (by rintro ⟨⟩) ?_
    have hreleased : (b.stack.takeWhile (Pending.yieldsTo mark)).filterMap Pending.opened? = [] :=
      Pending.filterMap_opened? fun q hq =>
        Pending.isSome_asEntry_of_yieldsTo (List.mem_takeWhile_imp hq)
    conv_rhs => rw [← List.takeWhile_append_dropWhile (p := Pending.yieldsTo mark) (l := b.stack)]
    rw [List.filterMap_append, hreleased]
    rfl
  | operand hoperand hv =>
    refine other ?_ ?_ rfl
    · rintro rfl
      cases hoperand
    · rintro rfl
      cases hoperand
  | function hv => exact other (by rintro ⟨⟩) (by rintro ⟨⟩) rfl
  | openParen => exact hb.opening hl
  | closeParen hstack habove =>
    rw [hstack, List.filterMap_append, Pending.filterMap_opened? habove] at hb
    exact hb.closing hl

theorem Follows.step (hb : Follows ps b) (h : b.step v p = .ok b') : Follows (ps ++ [p]) b' := by
  obtain ⟨after, htakes, rfl⟩ := step_eq_ok_iff.mp h
  rw [hb.offset_eq] at htakes
  exact ⟨by simp [hb.offset_eq], htakes.leaves hb.leaves⟩

/-- The open parentheses on the stack are those that the pieces leave open. -/
theorem Follows.run (hb : Follows ps b) (h : b.run v qs = .ok b') : Follows (ps ++ qs) b' :=
  run_induction (P := Follows) (fun _ _ _ _ hb hstep => hb.step hstep) hb h

/-- What leaves nothing on the stack open is balanced. -/
theorem Follows.isBalanced (hb : Follows ps b) (h : ∀ p ∈ b.stack, p.asEntry.isSome) :
    IsBalanced ps := by
  have hleaves := hb.leaves
  rw [Pending.filterMap_opened? h] at hleaves
  cases hleaves with
  | balanced hbalanced => exact hbalanced

/-! ### Where a builder finds a parenthesis unbalanced -/

/-- A closing parenthesis is refused where nothing on the stack is open. -/
theorem closeParen_eq_error_iff : b.closeParen offset = .error (.unbalancedParens o) ↔
    o = offset ∧ ∀ p ∈ b.stack, p.asEntry.isSome := by
  constructor
  · intro h
    unfold closeParen at h
    split at h
    next => cases h
    next output hrelease =>
      cases h
      obtain ⟨hentries, hstack, -⟩ := releaseWhile_eq_ok_iff.mp hrelease
      have hall := List.takeWhile_append_dropWhile (p := fun p : Pending => !p.isOpenParen)
        (l := b.stack)
      rw [← hstack, List.append_nil] at hall
      rw [hall] at hentries
      exact ⟨rfl, hentries⟩
    next fault hrelease =>
      cases h
      obtain ⟨above, top, below, -, -, htop, hfault⟩ := releaseWhile_eq_error_iff.mp hrelease
      rcases top with (op | _) | name | opened <;> cases hfault
      cases htop
  · rintro ⟨rfl, hentries⟩
    have hpass : ∀ p ∈ b.stack, !p.isOpenParen := by
      intro p hp
      rw [isOpenParen_eq_false (hentries p hp)]
      rfl
    have htake : b.stack.takeWhile (fun p => !p.isOpenParen) = b.stack :=
      List.takeWhile_eq_self_iff.mpr hpass
    have hdrop : b.stack.dropWhile (fun p => !p.isOpenParen) = [] :=
      List.dropWhile_eq_nil_iff.mpr hpass
    rw [closeParen, releaseWhile_eq_ok b.output (by rwa [htake]), hdrop]

/-- At the end the topmost open parenthesis is refused. -/
theorem finish_eq_error_iff {length : Nat} :
    b.finish length = .error (.unbalancedParens o) ↔
      ∃ above below, b.stack = above ++ .openParen o :: below ∧
        ∀ p ∈ above, p.asEntry.isSome := by
  constructor
  · intro h
    unfold finish at h
    split at h
    next => cases h
    next => cases h
    next fault hrelease =>
      cases h
      obtain ⟨above, top, below, hstack, habove, -, hfault⟩ := releaseWhile_eq_error_iff.mp hrelease
      rcases top with (op | _) | name | opened <;> cases hfault
      exact ⟨above, below, hstack, fun p hp => (habove p hp).2⟩
  · rintro ⟨above, below, hstack, habove⟩
    rw [finish, releaseWhile_eq_error_iff.mpr ⟨above, _, below, hstack,
      fun p hp => ⟨rfl, habove p hp⟩, rfl, rfl⟩]

theorem step_eq_error_iff {fault : Fault} : b.step v p = .error fault ↔
    b.take v (b.offset + p.gap.length) p.lexeme = .error fault := by
  unfold step
  cases b.take v (b.offset + p.gap.length) p.lexeme <;> simp

/-- A run that refuses a parenthesis refuses a closing one, behind what is balanced. -/
theorem exists_isBalanced_of_run (h : start.run v ps = .error (.unbalancedParens o)) :
    ∃ before q after, ps = before ++ q :: after ∧ q.lexeme = .closeParen ∧
      IsBalanced before ∧ o = Piece.place before q := by
  obtain ⟨before, q, after, front, rfl, hrun, hstep⟩ := run_eq_error_iff.mp h
  have hfollows : Follows before front := follows_start.run hrun
  have htake := step_eq_error_iff.mp hstep
  have hq : q.lexeme = .closeParen := by
    have hrejects := rejects_of_take htake
    generalize q.lexeme = l at hrejects
    cases hrejects
    rfl
  rw [hq, take, closeParen_eq_error_iff] at htake
  obtain ⟨rfl, hstack⟩ := htake
  refine ⟨before, q, after, rfl, hq, hfollows.isBalanced hstack, ?_⟩
  rw [hfollows.offset_eq, Piece.place]

/-- At the end, the parenthesis that is refused is the innermost that is left open. -/
theorem Follows.exists_leaves {length : Nat} (hb : Follows ps b)
    (h : b.finish length = .error (.unbalancedParens o)) : ∃ opened, Leaves (o :: opened) ps := by
  obtain ⟨above, below, hstack, habove⟩ := finish_eq_error_iff.mp h
  have hleaves := hb.leaves
  rw [hstack, List.filterMap_append, Pending.filterMap_opened? habove] at hleaves
  exact ⟨_, hleaves⟩

/-! ### Nothing but parentheses -/

/-- Without an equals sign, a stack with nothing open can be released, and on any other one
the topmost open parenthesis can be reached. -/
theorem releases_or_exists {stack : List Pending} (hequals : .operator .equals ∉ stack) :
    (∀ p ∈ stack, p.asEntry.isSome) ∨ ∃ opened above below,
      stack = above ++ .openParen opened :: below ∧ ∀ p ∈ above, p.asEntry.isSome := by
  by_cases hopens : 0 < stack.countP Pending.isOpenParen
  · exact .inr (exists_openParen hopens hequals)
  · refine .inl fun p hp => Pending.isSome_asEntry ?_ ?_
    · rintro rfl
      exact hequals hp
    · simpa using List.countP_eq_zero.mp (Nat.eq_zero_of_not_pos hopens) p hp

/-- What is not balanced cannot end, if nothing but a parenthesis can keep it from ending. -/
theorem Follows.exists_finish_eq_error (hb : Follows ps b) (hps : ¬ IsBalanced ps)
    (hequals : .operator .equals ∉ b.stack) (length : Nat) :
    ∃ o, b.finish length = .error (.unbalancedParens o) := by
  rcases releases_or_exists hequals with hstack | ⟨o, above, below, hstack, habove⟩
  · exact absurd (hb.isBalanced hstack) hps
  · exact ⟨o, finish_eq_error_iff.mpr ⟨above, below, hstack, habove⟩⟩

/-- Where nothing else is wrong with the pieces, a run refuses nothing but a parenthesis. -/
theorem exists_eq_unbalanced_of_run {fault : Fault}
    (hstray : ∀ l ∈ ps.map Piece.lexeme, l.isStray = false)
    (hoperand : ∀ before mark after, ps.map Piece.lexeme = before ++ .operator mark :: after →
      ∃ l, before.getLast? = some l ∧
        (l.isOperand ∨ l = .closeParen ∨ l = .operator (.operator .factorial)))
    (hknows : Knows v (ps.map Piece.lexeme)) (h : start.run v ps = .error fault) :
    ∃ o, fault = .unbalancedParens o := by
  obtain ⟨before, p, after, front, rfl, hrun, hstep⟩ := run_eq_error_iff.mp h
  have hps : (before ++ p :: after).map Piece.lexeme =
      before.map Piece.lexeme ++ [p.lexeme] ++ after.map Piece.lexeme := by simp
  rw [hps] at hstray hoperand hknows
  have hholds : Holds (before.map Piece.lexeme) front := holds_run holds_start hrun
  have hbegins := beginsFormula_of_run hrun fun l hl =>
    hstray l (List.mem_append_left _ (List.mem_append_left _ hl))
  by_cases hp : p.lexeme = .closeParen
  · have htake := step_eq_error_iff.mp hstep
    rw [hp, take] at htake
    rcases releases_or_exists (hholds.equals_not_mem hbegins.not_stray) with
      hstack | ⟨opened, above, below, hstack, habove⟩
    · rw [closeParen_eq_error_iff.mpr ⟨rfl, hstack⟩] at htake
      cases htake
      exact ⟨_, rfl⟩
    · rw [closeParen_eq_ok_iff.mpr ⟨opened, above, below, hstack, habove, rfl⟩] at htake
      cases htake
  · -- a formula may go on with any other piece
    have hnext : BeginsFormula (before.map Piece.lexeme ++ [p.lexeme]) := by
      refine ⟨fun l hl => hstray l (List.mem_append_left _ hl), ?_, ?_⟩
      · intro front' mark back hls
        exact hoperand front' mark (back ++ after.map Piece.lexeme) (by rw [hls]; simp)
      · intro front' back hls
        rcases List.eq_nil_or_concat back with rfl | ⟨back, l, rfl⟩
        · have hle := hbegins.closed_le _ [] (List.append_nil _).symm
          rw [List.append_nil] at hls
          rw [← hls, List.count_append, List.count_append, List.count_singleton, if_neg (by simpa)]
          omega
        · rw [List.concat_eq_append, ← List.append_assoc] at hls
          exact hbegins.closed_le front' back (List.append_inj' hls rfl).1
    obtain ⟨b', hok⟩ := exists_step (v := v) hholds hnext fun bs call hmem =>
      hknows bs call (List.mem_append_left _ hmem)
    rw [hok] at hstep
    cases hstep

end Builder

/-- The text can be read, and all that could be wrong with it are its parentheses. -/
structure IsOrderly (v : Vocabulary) (s : String) : Prop where
  /-- It has tokens. -/
  exists_tokens : ∃ ts, TokenList.ofFormula s = .ok ts
  /-- No token is a lone point, a lone character or a lone equals sign. -/
  not_stray : ∀ l ∈ (Reading.ofText s).lexemes, l.isStray = false
  /-- Directly in front of every operator an operand ends. -/
  operand_before : ∀ before mark after,
    (Reading.ofText s).lexemes = before ++ .operator mark :: after →
    ∃ l, before.getLast? = some l ∧
      (l.isOperand ∨ l = .closeParen ∨ l = .operator (.operator .factorial))
  /-- A word with an opening parenthesis as the next byte is a function, and any other word
  is a constant. -/
  word_known : ∀ before gap bs call after rest,
    (Reading.ofText s).pieces = before ++ ⟨gap, .word bs call⟩ :: after →
    Utf8.bytes s = Piece.flatten before ++ gap ++ bs ++ rest →
    if rest.head? = some '('.toUInt8 then v.isFunction (Lexeme.wordText bs)
    else v.isConstant (Lexeme.wordText bs)

namespace Postfix

variable {s : String}

/-- The three ways in which a formula is refused for a parenthesis: while it is read, while
its pieces are taken, and at its end. -/
theorem ofFormula_eq_unbalanced_iff : ofFormula v s = .error (.unbalancedParens o) ↔
    Builder.start.run v (Reading.ofText s).pieces = .error (.unbalancedParens o) ∨
      ∃ b, Builder.start.run v (Reading.ofText s).pieces = .ok b ∧
        ((Reading.ofText s).ending = .error (.unbalancedParens o) ∨
          ∃ gap, (Reading.ofText s).ending = .ok gap ∧
            b.finish (Utf8.bytes s).length = .error (.unbalancedParens o)) := by
  rw [ofFormula_eq_ofReading, ofReading]
  cases Builder.start.run v (Reading.ofText s).pieces with
  | error fault => simp
  | ok b => cases (Reading.ofText s).ending <;> simp

/-- **Unbalanced parentheses are reported where they are.**

A formula that is refused for a parenthesis is refused for a closing bracket in a reference,
where the innermost open one is of the other kind; or for a closing parenthesis with only
balanced ones in front of it; or, if every closing parenthesis has a partner, for the last
opening one that is never closed.

If the formula can be read and nothing else is wrong with it, but its parentheses are not
balanced, then it is refused for the first closing one without a partner, and if there is
none, for the last opening one without a partner. -/
theorem ofFormula_unbalanced (v : Vocabulary) (s : String) :
    (∀ o, ofFormula v s = .error (.unbalancedParens o) →
      IsMismatch s o ∨
        (∃ before q after, (Reading.ofText s).pieces = before ++ q :: after ∧
          q.lexeme = .closeParen ∧ IsBalanced before ∧ o = Piece.place before q) ∨
        (∃ ts, TokenList.ofFormula s = .ok ts) ∧
          (∀ o', ¬ IsUnopened (Reading.ofText s).pieces o') ∧
          IsGreatest {o | IsUnclosed (Reading.ofText s).pieces o} o) ∧
    (IsOrderly v s → ¬ IsBalanced (Reading.ofText s).pieces →
      ∃ o, ofFormula v s = .error (.unbalancedParens o) ∧
        (IsLeast {o | IsUnopened (Reading.ofText s).pieces o} o ∨
          (∀ o', ¬ IsUnopened (Reading.ofText s).pieces o') ∧
            IsGreatest {o | IsUnclosed (Reading.ofText s).pieces o} o)) := by
  have hends {o : Nat} {b : Builder}
      (hrun : Builder.start.run v (Reading.ofText s).pieces = .ok b)
      (hfinish : b.finish (Utf8.bytes s).length = .error (.unbalancedParens o)) :
      (∀ o', ¬ IsUnopened (Reading.ofText s).pieces o') ∧
        IsGreatest {o | IsUnclosed (Reading.ofText s).pieces o} o := by
    obtain ⟨opened, hleaves⟩ := (Builder.follows_start.run hrun).exists_leaves hfinish
    exact ⟨fun o' => hleaves.not_isUnopened, hleaves.isGreatest⟩
  constructor
  · intro o h
    rcases ofFormula_eq_unbalanced_iff.mp h with hrun | ⟨b, hrun, hending | ⟨gap, hgap, hfinish⟩⟩
    · exact .inr (.inl (Builder.exists_isBalanced_of_run hrun))
    · exact .inl (Reading.isMismatch_of_ending hending)
    · exact .inr (.inr ⟨⟨_, TokenList.ofFormula_eq_ok_iff.mpr ⟨gap, hgap, rfl⟩⟩,
        hends hrun hfinish⟩)
  · intro hs hbalanced
    cases hrun : Builder.start.run v (Reading.ofText s).pieces with
    | error fault =>
      obtain ⟨o, rfl⟩ := Builder.exists_eq_unbalanced_of_run hs.not_stray hs.operand_before
        (Reading.knows_iff.mpr hs.word_known) hrun
      refine ⟨o, ofFormula_eq_unbalanced_iff.mpr (.inl hrun), .inl ?_⟩
      obtain ⟨before, q, after, hps, hq, hbefore, rfl⟩ := Builder.exists_isBalanced_of_run hrun
      rw [hps]
      exact hbefore.isLeast hq
    | ok b =>
      obtain ⟨ts, hts⟩ := hs.exists_tokens
      obtain ⟨gap, hgap, -⟩ := TokenList.ofFormula_eq_ok_iff.mp hts
      have hfollows : Builder.Follows (Reading.ofText s).pieces b :=
        Builder.follows_start.run hrun
      have hholds : Builder.Holds (Reading.ofText s).lexemes b :=
        Builder.holds_run Builder.holds_start hrun
      obtain ⟨o, hfinish⟩ := hfollows.exists_finish_eq_error hbalanced
        (hholds.equals_not_mem hs.not_stray) _
      exact ⟨o, ofFormula_eq_unbalanced_iff.mpr (.inr ⟨b, hrun, .inr ⟨gap, hgap, hfinish⟩⟩),
        .inr (hends hrun hfinish)⟩

/-- A bracket in a reference that is closed by the wrong one, and a parenthesis inside another
one, neither of which is closed. -/
theorem ofFormula_unbalanced_open :
    IsMismatch "'é' @[)" 7 ∧ ofFormula .standard "(1 + ( 2" = .error (.unbalancedParens 5) ∧
      IsGreatest {o | IsUnclosed (Reading.ofText "(1 + ( 2").pieces o} 5 := by
  have hmismatch : ofFormula .standard "'é' @[)" = .error (.unbalancedParens 7) := by
    decide +kernel
  have hclosed : ∀ p ∈ (Reading.ofText "'é' @[)").pieces, p.lexeme ≠ .closeParen := by
    decide +kernel
  have htokens : TokenList.ofFormula "'é' @[)" = .error (.unbalancedParens 7) := by
    decide +kernel
  have hopen : ofFormula .standard "(1 + ( 2" = .error (.unbalancedParens 5) := by decide +kernel
  have hpieces : (Reading.ofText "(1 + ( 2").pieces =
      [] ++ ⟨[], .openParen⟩ :: [⟨[], .number ['1'.toUInt8]⟩,
        ⟨[' '.toUInt8], .operator (.operator .plus)⟩, ⟨[' '.toUInt8], .openParen⟩,
        ⟨[' '.toUInt8], .number ['2'.toUInt8]⟩] := by decide +kernel
  have hunclosed : ∀ p ∈ (Reading.ofText "(1 + ( 2").pieces, p.lexeme ≠ .closeParen := by
    rw [hpieces]
    decide
  have horderly : IsOrderly .standard "(1 + ( 2" := by
    refine ⟨⟨⟨["(", "1", "+", "(", "2"]⟩, by decide +kernel⟩, ?_, ?_, Reading.knows_iff.mp ?_⟩
    · rw [Reading.lexemes, hpieces]
      decide
    · intro before mark after h
      rw [Reading.lexemes, hpieces] at h
      rcases before with _ | ⟨a, _ | ⟨b, _ | ⟨c, _ | ⟨d, _ | ⟨e, before⟩⟩⟩⟩⟩ <;> simp at h
      obtain ⟨rfl, rfl, -⟩ := h
      exact ⟨_, rfl, .inl rfl⟩
    · intro bs call hmem
      rw [Reading.lexemes, hpieces] at hmem
      simp at hmem
  have hunbalanced : ¬ IsBalanced (Reading.ofText "(1 + ( 2").pieces := by
    intro h
    rw [hpieces] at h hunclosed
    obtain ⟨inner, q, outer, hps, hq, -⟩ := h.exists_closing rfl
    exact hunclosed q (by rw [hps]; simp) hq
  refine ⟨?_, hopen, ?_⟩
  · rcases (ofFormula_unbalanced _ _).1 7 hmismatch with
      h | ⟨before, q, after, hps, hq, -⟩ | ⟨⟨ts, hts⟩, -⟩
    · exact h
    · exact absurd hq (hclosed q (by rw [hps]; simp))
    · rw [htokens] at hts
      cases hts
  · obtain ⟨o, ho, h⟩ := (ofFormula_unbalanced _ _).2 horderly hunbalanced
    rw [hopen] at ho
    cases ho
    rcases h with ⟨hunopened, -⟩ | ⟨-, h⟩
    · generalize 5 = o at hunopened
      obtain @⟨before, after, q, hps, hq, -⟩ := hunopened
      exact absurd hq (hunclosed q (by rw [hps]; simp))
    · exact h

end Postfix

end PathFormula
