import PathFormula.Proofs.Conservation

/-!
# Which formulas are accepted

A text has a postfix order exactly if it can be read, no lexeme in it is stray,
operators stand behind operands, words are known, and parentheses are balanced
around something.  Operators may lack a right operand, and operands may stand
side by side; what the postfix order of such a text means is not decided here.

## Main definitions

* `BeginsFormula ls` — a formula can begin with the lexemes `ls`.
* `IsFormula v s` — the conditions on a text.

## Main results

* `Builder.exists_step` — a builder takes a lexeme that a formula can go on with.
* `Builder.exists_run` — and so it takes all lexemes that a formula can begin with.
* `exists_ofFormula_iff` — **a text has a postfix order exactly if it is a formula.**
-/

namespace PathFormula

/-- A formula can begin with these lexemes, as far as the words in them are known. -/
structure BeginsFormula (ls : List Lexeme) : Prop where
  /-- None is a lone point, a lone character or a lone equals sign. -/
  not_stray : ∀ l ∈ ls, l.isStray = false
  /-- Directly in front of every operator an operand ends. -/
  operand_before : ∀ before mark after, ls = before ++ .operator mark :: after →
    ∃ l, before.getLast? = some l ∧
      (l.isOperand ∨ l = .closeParen ∨ l = .operator (.operator .factorial))
  /-- Every closing parenthesis has an opening one in front of it. -/
  closed_le : ∀ before after, ls = before ++ after →
    before.count .closeParen ≤ before.count .openParen

/-- The conditions under which a text has a postfix order. -/
structure IsFormula (v : Vocabulary) (s : String) : Prop
    extends BeginsFormula (Reading.ofText s).lexemes where
  /-- A word with an opening parenthesis as the next byte is a function, and any
  other word is a constant. -/
  word_known : ∀ before gap bs call after rest,
    (Reading.ofText s).pieces = before ++ ⟨gap, .word bs call⟩ :: after →
    Utf8.bytes s = Piece.flatten before ++ gap ++ bs ++ rest →
    if rest.head? = some '('.toUInt8 then v.isFunction (Lexeme.wordText bs)
    else v.isConstant (Lexeme.wordText bs)
  /-- Every opening parenthesis is closed. -/
  closed_eq : (Reading.ofText s).lexemes.count .closeParen =
    (Reading.ofText s).lexemes.count .openParen
  /-- There is something else than parentheses. -/
  exists_entry : ∃ l ∈ (Reading.ofText s).lexemes, l ≠ .openParen ∧ l ≠ .closeParen

theorem BeginsFormula.of_append {ls ms : List Lexeme} (h : BeginsFormula (ls ++ ms)) :
    BeginsFormula ls where
  not_stray l hl := h.not_stray l (List.mem_append_left _ hl)
  operand_before before mark after hls := by
    refine h.operand_before before mark (after ++ ms) ?_
    rw [hls, List.append_assoc, List.cons_append]
  closed_le before after hls := by
    refine h.closed_le before (after ++ ms) ?_
    rw [hls, List.append_assoc]

/-- Apart from stray lexemes, an operand ends with an operand, a closing
parenthesis or a factorial. -/
theorem Lexeme.endsOperand_iff {l : Lexeme} (hl : l.isStray = false) :
    l.endsOperand ↔ l.isOperand ∨ l = .closeParen ∨ l = .operator (.operator .factorial) := by
  cases l with
  | operator mark =>
    rcases mark with op | _
    · cases op <;> decide
    · cases hl
  | number | quoted | reference | word => simp [endsOperand, isOperand]
  | openParen | closeParen => decide
  | dot | symbol => cases hl

theorem Pending.isSome_asEntry {p : Pending} (hequals : p ≠ .operator .equals)
    (hopen : p.isOpenParen = false) : p.asEntry.isSome := by
  rcases p with (op | _) | name | offset
  · rfl
  · exact absurd rfl hequals
  · rfl
  · cases hopen

namespace Builder

variable {v : Vocabulary} {b : Builder} {ls : List Lexeme}

/-- The words among the lexemes are known. -/
def Knows (v : Vocabulary) (ls : List Lexeme) : Prop :=
  ∀ bs call, .word bs call ∈ ls →
    if call then v.isFunction (Lexeme.wordText bs) else v.isConstant (Lexeme.wordText bs)

/-! ### A formula is accepted -/

/-- Without an equals sign, the topmost open parenthesis can be reached. -/
theorem exists_openParen {stack : List Pending} (hopens : 0 < stack.countP Pending.isOpenParen)
    (hequals : .operator .equals ∉ stack) :
    ∃ opened above below, stack = above ++ .openParen opened :: below ∧
      ∀ p ∈ above, p.asEntry.isSome := by
  obtain ⟨p, hp, hopen⟩ := List.countP_pos_iff.mp hopens
  cases hfind : stack.find? Pending.isOpenParen with
  | none => exact absurd hopen (List.find?_eq_none.mp hfind p hp)
  | some top =>
    obtain ⟨htop, above, below, rfl, habove⟩ := List.find?_eq_some_iff_append.mp hfind
    rcases top with (op | _) | name | opened
    · cases htop
    · cases htop
    · cases htop
    refine ⟨opened, above, below, rfl, fun q hq => Pending.isSome_asEntry ?_ ?_⟩
    · rintro rfl
      exact hequals (List.mem_append_left _ hq)
    · simpa using habove q hq

/-- A builder takes a lexeme that a formula can go on with. -/
theorem exists_step {p : Piece} (hb : Holds ls b) (hls : BeginsFormula (ls ++ [p.lexeme]))
    (hknows : Knows v (ls ++ [p.lexeme])) : ∃ b', b.step v p = .ok b' := by
  suffices h : ∃ after, Takes v b (b.offset + p.gap.length) p.lexeme after by
    obtain ⟨after, hafter⟩ := h
    exact ⟨_, step_eq_ok_iff.mpr ⟨after, hafter, rfl⟩⟩
  have hstray : p.lexeme.isStray = false := hls.not_stray _ (by simp)
  have hword (bs : List UInt8) (call : Bool) (hl : p.lexeme = .word bs call) :=
    hknows bs call (by simp [hl])
  have hequals : .operator .equals ∉ b.stack :=
    hb.equals_not_mem fun l hl => hls.not_stray l (List.mem_append_left _ hl)
  cases hl : p.lexeme with
  | operator mark =>
    obtain ⟨l, hlast, hl'⟩ := hls.operand_before ls mark [] (by rw [hl])
    have hmem : l ∈ ls := List.mem_of_getLast? hlast
    refine ⟨_, .operator ?_⟩
    rw [hb.afterOperand_eq, hlast]
    exact (Lexeme.endsOperand_iff (hls.not_stray l (List.mem_append_left _ hmem))).mpr hl'
  | number | quoted | reference => exact ⟨_, .operand rfl (by simp)⟩
  | word bs call =>
    have hv := hword bs call hl
    cases call with
    | true => exact ⟨_, .function hv⟩
    | false =>
      refine ⟨_, .operand rfl fun bs' hbs => ?_⟩
      cases hbs
      exact hv
  | openParen => exact ⟨_, .openParen⟩
  | closeParen =>
    -- one more is opened than closed in front of it
    have hle := hls.closed_le (ls ++ [.closeParen]) [] (by rw [hl, List.append_nil])
    have hopens := hb.opens_add
    rw [List.count_append, List.count_append] at hle
    have hpos : 0 < b.stack.countP Pending.isOpenParen := by
      have hone : [Lexeme.closeParen].count .closeParen = 1 := rfl
      have hzero : [Lexeme.closeParen].count .openParen = 0 := rfl
      omega
    obtain ⟨opened, above, below, hstack, habove⟩ := exists_openParen hpos hequals
    exact ⟨_, .closeParen hstack habove⟩
  | dot | symbol => simp [hl, Lexeme.isStray] at hstray

/-- A builder takes all lexemes that a formula can begin with. -/
theorem exists_run {ps : List Piece} (hls : BeginsFormula (ps.map Piece.lexeme))
    (hknows : Knows v (ps.map Piece.lexeme)) : ∃ b, start.run v ps = .ok b := by
  -- on the front parts of the formula, since these are what a builder has taken
  induction ps using List.reverseRecOn with
  | nil => exact ⟨start, rfl⟩
  | append_singleton ps p ih =>
    rw [List.map_append] at hls hknows
    obtain ⟨b, hrun⟩ := ih hls.of_append fun bs call hmem =>
      hknows bs call (List.mem_append_left _ hmem)
    have hb : Holds (ps.map Piece.lexeme) b := holds_run holds_start hrun
    obtain ⟨b', hstep⟩ := exists_step hb hls hknows
    exact ⟨b', (run_append ps [p]).mpr ⟨b, hrun, run_singleton.mpr hstep⟩⟩

/-- Where all is closed and something is put out, a formula can end. -/
theorem exists_finish (hb : Holds ls b) (hls : BeginsFormula ls)
    (hclosed : ls.count .closeParen = ls.count .openParen)
    (hentry : ∃ l ∈ ls, l ≠ .openParen ∧ l ≠ .closeParen) (length : Nat) :
    ∃ p, b.finish length = .ok p := by
  have hopens := hb.opens_add
  have hzero : b.stack.countP Pending.isOpenParen = 0 := by omega
  refine ⟨⟨_⟩, finish_eq_ok_iff.mpr ⟨fun q hq => Pending.isSome_asEntry ?_ ?_, ?_, rfl⟩⟩
  · rintro rfl
    exact hb.equals_not_mem hls.not_stray hq
  · simpa using List.countP_eq_zero.mp hzero q hq
  · intro hnil
    obtain ⟨l, hl, hparen⟩ := hentry
    have hheld : b.held = [] := by simpa [held] using hnil
    have hnone := hb.held_perm
    rw [hheld, List.nil_perm, List.filterMap_eq_nil_iff] at hnone
    exact (Lexeme.eq_paren_of_asEntry (hnone l hl) (hls.not_stray l hl)).elim hparen.1 hparen.2

/-! ### What is accepted is a formula -/

/-- Before a run goes on with a piece, a builder has taken those in front of it. -/
theorem exists_takes_of_run {before after : List Piece} {p : Piece}
    (hrun : start.run v (before ++ p :: after) = .ok b) :
    ∃ front offset b', Holds (before.map Piece.lexeme) front ∧
      Takes v front offset p.lexeme b' := by
  obtain ⟨front, hfront, hrun⟩ := (run_append before (p :: after)).mp hrun
  obtain ⟨next, hstep, -⟩ := (run_append [p] after).mp hrun
  obtain ⟨b', htake, -⟩ := step_eq_ok_iff.mp (run_singleton.mp hstep)
  exact ⟨front, _, b', holds_run holds_start hfront, htake⟩

/-- A formula can begin with what a builder has taken, unless it is stray. -/
theorem beginsFormula_of_run {ps : List Piece} (hrun : start.run v ps = .ok b)
    (hstray : ∀ l ∈ ps.map Piece.lexeme, l.isStray = false) :
    BeginsFormula (ps.map Piece.lexeme) where
  not_stray := hstray
  operand_before := by
    intro before mark after hls
    obtain ⟨front, back, rfl, rfl, hback⟩ := List.map_eq_append_iff.mp hls
    obtain ⟨p, back, rfl, hp, -⟩ := List.map_eq_cons_iff.mp hback
    obtain ⟨b₀, offset, b', hb₀, htake⟩ := exists_takes_of_run hrun
    rw [hp] at htake
    have hafter := htake.afterOperand_eq
    rw [hb₀.afterOperand_eq] at hafter
    cases hlast : (front.map Piece.lexeme).getLast? with
    | none => simp [hlast] at hafter
    | some l =>
      rw [hlast] at hafter
      have hl : l ∈ front.map Piece.lexeme := List.mem_of_getLast? hlast
      refine ⟨l, rfl, (Lexeme.endsOperand_iff (hstray l ?_)).mp hafter⟩
      rw [List.map_append]
      exact List.mem_append_left _ hl
  closed_le := by
    intro before after hls
    obtain ⟨front, back, rfl, rfl, -⟩ := List.map_eq_append_iff.mp hls
    obtain ⟨b₀, hfront, -⟩ := (run_append front back).mp hrun
    have hopens : _ + _ = (front.map Piece.lexeme).count .openParen :=
      (holds_run holds_start hfront).opens_add
    simp only [List.nil_append] at hopens
    omega

theorem knows_of_run {ps : List Piece} (hrun : start.run v ps = .ok b) :
    Knows v (ps.map Piece.lexeme) := by
  intro bs call hmem
  obtain ⟨p, hp, hl⟩ := List.mem_map.mp hmem
  obtain ⟨before, after, rfl⟩ := List.append_of_mem hp
  obtain ⟨front, offset, b', -, htake⟩ := exists_takes_of_run hrun
  rw [hl] at htake
  cases htake with
  | operand hoperand hv =>
    cases call with
    | true => cases hoperand
    | false => exact hv bs rfl
  | function hv => exact hv

/-- A formula that can end has all closed, and something that was put out. -/
theorem closed_of_finish {length : Nat} {p : Postfix} (hb : Holds ls b)
    (hfinish : b.finish length = .ok p) :
    ls.count .closeParen = ls.count .openParen ∧ ∃ l ∈ ls, l ≠ .openParen ∧ l ≠ .closeParen := by
  obtain ⟨hstack, hne, hentries⟩ := finish_eq_ok_iff.mp hfinish
  constructor
  · have hopens := hb.opens_add
    rw [countP_isOpenParen_eq_zero hstack] at hopens
    omega
  · have hheld : b.held ≠ [] := by
      intro hnil
      refine hne ?_
      rw [hentries]
      simpa [held] using hnil
    obtain ⟨entry, hentry⟩ := List.exists_mem_of_ne_nil _ hheld
    obtain ⟨l, hl, hl'⟩ := List.mem_filterMap.mp (hb.held_perm.mem_iff.mp hentry)
    refine ⟨l, hl, ?_, ?_⟩
    · rintro rfl
      cases hl'
    · rintro rfl
      cases hl'

end Builder

/-! ### The criterion -/

/-- In a reading, a word is called exactly if an opening parenthesis is the next
byte of the text. -/
theorem Reading.knows_iff {v : Vocabulary} {s : String} :
    Builder.Knows v (ofText s).lexemes ↔ ∀ before gap bs call after rest,
      (ofText s).pieces = before ++ ⟨gap, .word bs call⟩ :: after →
      Utf8.bytes s = Piece.flatten before ++ gap ++ bs ++ rest →
      if rest.head? = some '('.toUInt8 then v.isFunction (Lexeme.wordText bs)
      else v.isConstant (Lexeme.wordText bs) := by
  obtain ⟨last, left, hreads, -⟩ := exists_reads_ofText s
  constructor
  · intro h before gap bs call after rest hps hrest
    have hmem : .word bs call ∈ (ofText s).lexemes := by simp [lexemes, hps]
    have hv := h bs call hmem
    rw [hps] at hreads
    have hcall := hreads.call_eq hrest
    simpa [hcall] using hv
  · intro h bs call hmem
    obtain ⟨⟨gap, l⟩, hp, rfl⟩ := List.mem_map.mp hmem
    obtain ⟨before, after, hps⟩ := List.append_of_mem hp
    rw [hps] at hreads
    have hrest : Utf8.bytes s =
        Piece.flatten before ++ gap ++ bs ++ (Piece.flatten after ++ left) := by
      rw [← hreads.bytes_append]
      simp [Piece.bytes, Lexeme.bytes]
    have hv := h before gap bs call after _ hps hrest
    simpa [hreads.call_eq hrest] using hv

namespace Postfix

/-- **A text has a postfix order exactly if it is a formula.** -/
theorem exists_ofFormula_iff (v : Vocabulary) (s : String) :
    (∃ p, ofFormula v s = .ok p) ↔ (∃ ts, TokenList.ofFormula s = .ok ts) ∧ IsFormula v s := by
  constructor
  · rintro ⟨p, h⟩
    obtain ⟨b, gap, hrun, hgap, hfinish⟩ := ofFormula_eq_ok_iff.mp h
    obtain ⟨hstack, -⟩ := Builder.finish_eq_ok_iff.mp hfinish
    have hb : Builder.Holds (Reading.ofText s).lexemes b :=
      Builder.holds_run Builder.holds_start hrun
    obtain ⟨hclosed, hentry⟩ := Builder.closed_of_finish hb hfinish
    refine ⟨⟨_, TokenList.ofFormula_eq_ok_iff.mpr ⟨gap, hgap, rfl⟩⟩, ?_⟩
    exact
      { toBeginsFormula := Builder.beginsFormula_of_run hrun (hb.isStray_eq_false hstack)
        word_known := Reading.knows_iff.mp (Builder.knows_of_run hrun)
        closed_eq := hclosed
        exists_entry := hentry }
  · rintro ⟨⟨ts, hts⟩, hs⟩
    obtain ⟨gap, hgap, -⟩ := TokenList.ofFormula_eq_ok_iff.mp hts
    obtain ⟨b, hrun⟩ := Builder.exists_run hs.toBeginsFormula (Reading.knows_iff.mpr hs.word_known)
    have hb : Builder.Holds (Reading.ofText s).lexemes b :=
      Builder.holds_run Builder.holds_start hrun
    obtain ⟨p, hfinish⟩ := Builder.exists_finish hb hs.toBeginsFormula hs.closed_eq
      hs.exists_entry (Utf8.bytes s).length
    exact ⟨p, ofFormula_eq_ok_iff.mpr ⟨b, gap, hrun, hgap, hfinish⟩⟩

end Postfix

end PathFormula
