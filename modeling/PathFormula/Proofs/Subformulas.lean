import PathFormula.Proofs.Precedence
import PathFormula.Proofs.Seams

/-!
# Formulas in parentheses

A formula in parentheses puts out what it puts out by itself, wherever it stands.  Inside
the parentheses the builder goes through the steps that it goes through at the front of a
text, with the open parenthesis and what was there before below on the stack: no release
reaches an open parenthesis that no closing one belongs to.  The closing one then releases
what the end of the text would.

This is so for whatever has a postfix order, be it an expression or not.

## Main definitions

* `Builder.atop b below` — the builder `b` as it stands when its formula begins where
  `below` stands.
* `Builder.Settles v entries ps` — wherever the pieces are taken, they put out the entries
  and leave nothing waiting.

## Main results

* `Reads.parens` — a formula in parentheses is read as by itself.
* `Builder.run_atop` — what is below an open parenthesis has no part in what is above.
* `Builder.settles_parens` — a formula in parentheses puts out what it does by itself.
* `Postfix.ofFormula_parens` — **the postfix orders of formulas in parentheses compose.**
-/

namespace PathFormula

/-- The test holds in front of what does not begin with it, and so a run up to there is a
run of the front part alone. -/
theorem span_append_of_head {α : Type} {p : α → Bool} (front : List α) {back : List α}
    (hback : ∀ a ∈ back.head?, p a = false) :
    (front ++ back).takeWhile p = front.takeWhile p ∧
      (front ++ back).dropWhile p = front.dropWhile p ++ back := by
  induction front with
  | nil => exact span_append (by simp) hback
  | cons a front ih =>
    by_cases ha : p a
    · simp [ha, ih]
    · simp [ha]

/-! ### Reading -/

variable {last : Bool} {bytes gap left trail : List UInt8} {ps : List Piece}

/-- A formula in parentheses is read as by itself. -/
theorem Reads.parens (hgap : Byte.IsGap gap) (h : Reads false bytes ps last left)
    (hleft : Byte.IsGap left) (afterOperand : Bool) (rest : List UInt8) :
    Reads afterOperand (gap ++ ('('.toUInt8 :: (bytes ++ ')'.toUInt8 :: rest)))
      (⟨gap, .openParen⟩ :: (ps ++ [⟨left, .closeParen⟩])) true rest := by
  have hopen := Reads.of_standsBefore hgap (Lexeme.standsBefore_openParen afterOperand
    (bytes ++ ')'.toUInt8 :: rest))
  have hclose := Reads.of_standsBefore hleft (Lexeme.standsBefore_closeParen last rest)
  exact hopen.trans ((h.append (Lexeme.allEnd_closeParen rest)).trans hclose)

/-! ### What is below -/

/-- What waits, in a formula that begins `n` bytes further on. -/
def Pending.shift (n : Nat) : Pending → Pending
  | openParen offset => openParen (n + offset)
  | p => p

@[simp] theorem Pending.asEntry_shift (n : Nat) (p : Pending) :
    (p.shift n).asEntry = p.asEntry := by
  cases p <;> rfl

@[simp] theorem Pending.asEntry_comp_shift (n : Nat) : asEntry ∘ shift n = asEntry :=
  funext (asEntry_shift n)

theorem Pending.yieldsTo_comp_shift (n : Nat) (mark : Mark) :
    yieldsTo mark ∘ shift n = yieldsTo mark := by
  funext p
  cases p <;> rfl

namespace Builder

variable {v : Vocabulary} {b b' below : Builder} {offset n : Nat} {l : Lexeme}
  {entries : List Entry} {p q : Postfix}

/-- The builder as it stands when its formula begins where `below` stands. -/
def atop (b below : Builder) : Builder :=
  ⟨below.offset + b.offset, b.stack.map (Pending.shift below.offset) ++ below.stack,
    b.output ++ below.output, b.afterOperand⟩

theorem start_atop (h : below.afterOperand = false) : start.atop below = below := by
  simp [atop, start, ← h]

/-- Nothing on the stack below is released for an operator. -/
def IsBarred (below : Builder) : Prop := ∀ p ∈ below.stack.head?, p.isOpenParen

/-- What is below an open parenthesis has no part in how a lexeme is taken above it. -/
theorem Takes.atop (h : Takes v b offset l b') (hbelow : below.IsBarred) :
    Takes v (b.atop below) (below.offset + offset) l (b'.atop below) := by
  cases h with
  | @operator mark hb =>
    have hhead : ∀ p ∈ below.stack.head?, p.yieldsTo mark = false := by
      intro p hp
      have hopen := hbelow p hp
      cases p with
      | openParen => rfl
      | operator | function => cases hopen
    obtain ⟨htake, hdrop⟩ :=
      span_append_of_head (b.stack.map (Pending.shift below.offset)) hhead
    rw [List.takeWhile_map, Pending.yieldsTo_comp_shift] at htake
    rw [List.dropWhile_map, Pending.yieldsTo_comp_shift] at hdrop
    have htakes : Takes v (b.atop below) (below.offset + offset) (.operator mark) _ :=
      .operator hb
    simpa [Builder.atop, htake, hdrop, Pending.shift] using htakes
  | operand hl hv => exact .operand hl hv
  | function hv => exact .function hv
  | openParen => exact .openParen
  | @closeParen opened above under hstack habove =>
    have hstack' : (b.atop below).stack = above.map (Pending.shift below.offset) ++
        .openParen (below.offset + opened) :: (under.map (Pending.shift below.offset) ++
          below.stack) := by
      simp [Builder.atop, hstack, Pending.shift]
    have htakes : Takes v (b.atop below) (below.offset + offset) .closeParen _ :=
      .closeParen hstack' (by simpa using habove)
    simpa [Builder.atop] using htakes

theorem step_atop {p : Piece} (h : b.step v p = .ok b') (hbelow : below.IsBarred) :
    (b.atop below).step v p = .ok (b'.atop below) := by
  obtain ⟨after, htakes, rfl⟩ := step_eq_ok_iff.mp h
  refine step_eq_ok_iff.mpr ⟨after.atop below, ?_, ?_⟩
  · rw [atop, Nat.add_assoc]
    exact htakes.atop hbelow
  · simp [atop, Nat.add_assoc]

/-- What is below an open parenthesis has no part in how pieces are taken above it. -/
theorem run_atop (h : b.run v ps = .ok b') (hbelow : below.IsBarred) :
    (b.atop below).run v ps = .ok (b'.atop below) := by
  induction ps generalizing b with
  | nil =>
    cases h
    rfl
  | cons p ps ih =>
    obtain ⟨after, hstep, hrun⟩ := run_cons.mp h
    exact run_cons.mpr ⟨after.atop below, step_atop hstep hbelow, ih hrun⟩

/-! ### What parentheses put out -/

/-- Wherever the pieces are taken, they put out the entries and leave nothing waiting. -/
def Settles (v : Vocabulary) (entries : List Entry) (ps : List Piece) : Prop :=
  ∀ b : Builder, ∃ b', b.run v ps = .ok b' ∧ b'.stack = b.stack ∧
    b'.output = entries.reverse ++ b.output ∧ b'.afterOperand = true

/-- A formula in parentheses puts out what it does by itself. -/
theorem settles_parens {length : Nat} (hrun : start.run v ps = .ok b')
    (hfinish : b'.finish length = .ok p) (gap trail : List UInt8) :
    Settles v p.entries (⟨gap, .openParen⟩ :: (ps ++ [⟨trail, .closeParen⟩])) := by
  intro b
  obtain ⟨hstack, -, hentries⟩ := finish_eq_ok_iff.mp hfinish
  obtain ⟨b₁, opened, hstep₁, hstack₁, houtput₁, hafter₁⟩ :=
    exists_step_openParen (v := v) (p := ⟨gap, .openParen⟩) b rfl
  have hbarred : b₁.IsBarred := by
    intro q hq
    rw [hstack₁] at hq
    cases hq
    rfl
  have hrun₂ := run_atop hrun hbarred
  rw [start_atop hafter₁] at hrun₂
  -- all that waits above the open parenthesis is released
  have hstack₂ : (b'.atop b₁).stack =
      b'.stack.map (Pending.shift b₁.offset) ++ .openParen opened :: b.stack := by
    rw [atop, hstack₁]
  have hstep₃ := step_of_takes (v := v) (b := b'.atop b₁) (p := ⟨trail, .closeParen⟩) rfl
    (.closeParen hstack₂ (by simpa using hstack))
  refine ⟨_, run_cons.mpr ⟨b₁, hstep₁, (run_append ps _).mpr ⟨_, hrun₂,
    run_singleton.mpr hstep₃⟩⟩, rfl, ?_, rfl⟩
  rw [hentries]
  simp [atop, houtput₁]

/-- What has settled has gained its entries, whatever may come next. -/
theorem Settles.gains (h : Settles v entries ps) (b : Builder) (n : Nat) :
    ∃ b', b.run v ps = .ok b' ∧ Gains b n entries b' := by
  obtain ⟨b', hrun, hstack, houtput, hafter⟩ := h b
  exact ⟨b', hrun, .intro [] entries hstack houtput (List.append_nil _) (by simp) hafter⟩

end Builder

/-! ### Formulas in parentheses -/

namespace Postfix

open Builder

variable {v : Vocabulary} {a s : String} {ra p : Postfix} {b : Builder} {n : Nat}
  {entries entries' : List Entry} {bytes' : List UInt8}

/-- Wherever the bytes stand, they are read by themselves, and put out the entries. -/
structure PutsOut (v : Vocabulary) (bytes : List UInt8) (entries : List Entry) : Prop where
  ne_nil : entries ≠ []
  exists_reads : ∀ afterOperand gap rest, Byte.IsGap gap →
    ∃ ps, Reads afterOperand (gap ++ (bytes ++ rest)) ps true rest ∧ Settles v entries ps

/-- The bytes of a formula in parentheses. -/
def inParens (a : String) : List UInt8 := '('.toUInt8 :: (Utf8.bytes a ++ [')'.toUInt8])

theorem putsOut_inParens (ha : ofFormula v a = .ok ra) : PutsOut v (inParens a) ra.entries := by
  obtain ⟨b, trail, hrun, hending, hfinish⟩ := ofFormula_eq_ok_iff.mp ha
  obtain ⟨htrail, last, hreads⟩ := Reading.exists_reads_of_ending hending
  refine ⟨(finish_eq_ok_iff.mp hfinish).2.1, fun afterOperand gap rest hgap => ?_⟩
  have hparens := hreads.parens hgap htrail afterOperand rest
  refine ⟨_, ?_, settles_parens hrun hfinish gap trail⟩
  simpa [inParens, Reading.ofText] using hparens

/-- A text has the postfix order of the entries that its pieces gain. -/
theorem ofFormula_of_gains (hs : Utf8.bytes s = bytes) (hreads : Reads false bytes ps last [])
    (hrun : start.run v ps = .ok b) (hgains : Gains start n entries b) (hne : entries ≠ []) :
    ofFormula v s = .ok ⟨entries⟩ := by
  have hreading : Reading.ofText s = ⟨ps, .ok []⟩ := by
    rw [Reading.ofText, hs]
    exact Reading.ofBytes_eq_iff.mpr ⟨last, [], hreads, .space Expr.isGap_nil⟩
  obtain ⟨waiting, settled, hstack, houtput, hentries, hwaiting, -⟩ := hgains
  rw [ofFormula_eq_ok_iff, hreading]
  refine ⟨b, [], hrun, rfl, finish_eq_ok_iff.mpr ⟨?_, hne, ?_⟩⟩
  · intro q hq
    rw [hstack] at hq
    simp only [start, List.append_nil] at hq
    exact (hwaiting q hq).isSome_asEntry
  · show entries = _
    rw [houtput, hstack, ← hentries]
    simp [start]

theorem PutsOut.ofFormula (h : PutsOut v (Utf8.bytes s) entries) :
    ofFormula v s = .ok ⟨entries⟩ := by
  obtain ⟨ps, hreads, hps⟩ := h.exists_reads false [] [] Expr.isGap_nil
  rw [List.append_nil] at hreads
  obtain ⟨b, hrun, hgains⟩ := hps.gains start 0
  exact ofFormula_of_gains rfl hreads hrun hgains h.ne_nil

/-- An operator between two such stretches comes behind both. -/
theorem PutsOut.ofFormula_operator (h : PutsOut v bytes entries) (h' : PutsOut v bytes' entries')
    (op : Operator) (hs : Utf8.bytes s =
      bytes ++ (' '.toUInt8 :: (op.bytes ++ (' '.toUInt8 :: bytes')))) :
    Postfix.ofFormula v s = .ok ⟨entries ++ entries' ++ [.operator op]⟩ := by
  obtain ⟨ls, hleft, hls⟩ := h.exists_reads false [] (' '.toUInt8 :: (op.bytes ++
    (' '.toUInt8 :: bytes'))) Expr.isGap_nil
  have hread := Reads.of_standsBefore Expr.isGap_space
    (Lexeme.standsBefore_operator op (Expr.endsWord_space bytes'))
  obtain ⟨rs, hright, hrs⟩ := h'.exists_reads (Lexeme.operator (.operator op)).endsOperand
    [' '.toUInt8] [] Expr.isGap_space
  rw [List.append_nil] at hright
  -- the operator finds the left side put out, and waits while the right one is
  obtain ⟨b₁, hrun₁, hgains₁⟩ := hls.gains start (op.tier + 1)
  obtain ⟨b₂, hstep, hstack, houtput, -⟩ := hgains₁.operator (v := v)
    (p := ⟨[' '.toUInt8], .operator (.operator op)⟩) rfl (by split <;> omega) (.nil _)
  obtain ⟨b₃, hrun₃, hgains₃⟩ := hrs.gains b₂ op.tier
  refine ofFormula_of_gains hs (hleft.trans (hread.trans hright)) ?_
    (hgains₃.binary (Nat.le_refl _) hstack houtput) (by simp)
  exact (run_append ls _).mpr ⟨b₁, hrun₁, run_cons.mpr ⟨b₂, hstep, hrun₃⟩⟩

/-- A factorial comes behind. -/
theorem PutsOut.ofFormula_factorial (h : PutsOut v bytes entries)
    (hs : Utf8.bytes s = bytes ++ Operator.factorial.bytes) :
    Postfix.ofFormula v s = .ok ⟨entries ++ [.operator .factorial]⟩ := by
  obtain ⟨ps, hreads, hps⟩ := h.exists_reads false [] Operator.factorial.bytes Expr.isGap_nil
  have hread := Reads.of_standsBefore Expr.isGap_nil
    (Lexeme.standsBefore_operator .factorial endsWord_nil)
  rw [List.append_nil] at hread
  obtain ⟨b₁, hrun, hgains⟩ := hps.gains start 8
  obtain ⟨b₂, hstep, hstack, houtput, hafter⟩ := hgains.operator (v := v)
    (p := ⟨[], .operator (.operator .factorial)⟩) rfl (by decide) (.nil _)
  have hgains₂ : Gains start 7 (entries ++ [.operator .factorial]) b₂ := by
    refine .intro [.operator (.operator .factorial)] entries hstack houtput rfl ?_ hafter
    intro q hq
    rw [List.mem_singleton.mp hq]
    exact Nat.le_refl _
  refine ofFormula_of_gains hs (hreads.trans hread) ?_ hgains₂ (by simp)
  exact (run_append ps _).mpr ⟨b₁, hrun, run_singleton.mpr hstep⟩

/-- A function whose parenthesis is the first byte comes behind. -/
theorem PutsOut.ofFormula_call {name : String} {more : List UInt8}
    (h : PutsOut v ('('.toUInt8 :: more) entries) (hname : IsName (Utf8.bytes name))
    (hv : v.isFunction name) (hs : Utf8.bytes s = Utf8.bytes name ++ ('('.toUInt8 :: more)) :
    Postfix.ofFormula v s = .ok ⟨entries ++ [.function name]⟩ := by
  have hread := Reads.of_standsBefore Expr.isGap_nil (Lexeme.standsBefore_call false hname more)
  obtain ⟨ps, hreads, hps⟩ := h.exists_reads false [] [] Expr.isGap_nil
  rw [List.append_nil] at hreads
  obtain ⟨b₁, hstep, hstack₁, houtput₁⟩ := exists_step_function (v := v)
    (p := ⟨[], .word (Utf8.bytes name) true⟩) start rfl hname hv
  obtain ⟨b₂, hrun, hstack₂, houtput₂, hafter⟩ := hps b₁
  have hgains : Gains start 0 (entries ++ [.function name]) b₂ := by
    refine .intro [.function name] entries ?_ ?_ rfl ?_ hafter
    · rw [hstack₂, hstack₁]
      rfl
    · rw [houtput₂, houtput₁]
    · intro q hq
      rw [List.mem_singleton.mp hq]
      trivial
  exact ofFormula_of_gains hs (hread.trans hreads) (run_cons.mpr ⟨b₁, hstep, hrun⟩) hgains
    (by simp)

/-- **The postfix orders of formulas in parentheses compose.**

Parentheses around a formula change nothing of its postfix order.  An operator between two
formulas in parentheses comes behind both, a factorial comes behind the one in front of it,
and so does a function that is called with it.  The formulas are any that have a postfix
order, and need be no expressions. -/
theorem ofFormula_parens {v : Vocabulary} {a : String} {ra : Postfix}
    (ha : ofFormula v a = .ok ra) :
    ofFormula v ("(" ++ a ++ ")") = .ok ra ∧
      (∀ (op : Operator) (b : String) (rb : Postfix), ofFormula v b = .ok rb →
        ofFormula v ("(" ++ a ++ ") " ++ op.symbol ++ " (" ++ b ++ ")") =
          .ok ⟨ra.entries ++ rb.entries ++ [.operator op]⟩) ∧
      ofFormula v ("(" ++ a ++ ")!") = .ok ⟨ra.entries ++ [.operator .factorial]⟩ ∧
      ∀ name : String, IsName (Utf8.bytes name) → v.isFunction name →
        ofFormula v (name ++ "(" ++ a ++ ")") = .ok ⟨ra.entries ++ [.function name]⟩ := by
  have hparens := putsOut_inParens ha
  have hopen : Utf8.bytes "(" = ['('.toUInt8] := rfl
  have hclose : Utf8.bytes ")" = [')'.toUInt8] := rfl
  refine ⟨PutsOut.ofFormula ?_, ?_, hparens.ofFormula_factorial ?_, ?_⟩
  · have hbytes : Utf8.bytes ("(" ++ a ++ ")") = inParens a := by
      simp [inParens, hopen, hclose]
    rwa [hbytes]
  · intro op b rb hb
    refine hparens.ofFormula_operator (putsOut_inParens hb) op ?_
    have hbefore : Utf8.bytes ") " = [')'.toUInt8, ' '.toUInt8] := rfl
    have hbehind : Utf8.bytes " (" = [' '.toUInt8, '('.toUInt8] := rfl
    simp [inParens, hopen, hclose, hbefore, hbehind, Expr.bytes_operator]
  · have hend : Utf8.bytes ")!" = ')'.toUInt8 :: Operator.factorial.bytes := rfl
    simp [inParens, hopen, hend]
  · intro name hname hv
    refine hparens.ofFormula_call hname hv ?_
    simp [hopen, hclose]

/-- A sum that lacks its right side, and a call. -/
theorem ofFormula_parens_sum :
    ofFormula .standard "1 +" = .ok ⟨[.operand "1", .operator .plus]⟩ ∧
      ofFormula .standard
          ("(" ++ "1 +" ++ ") " ++ Operator.power.symbol ++ " (" ++ "'é' @" ++ ")") =
        .ok ⟨[.operand "1", .operator .plus, .operand "'é'", .operand "@",
          .operator .power]⟩ ∧
      ofFormula .standard ("sin" ++ "(" ++ "1 +" ++ ")") =
        .ok ⟨[.operand "1", .operator .plus, .function "sin"]⟩ := by
  have hsum : ofFormula .standard "1 +" = .ok ⟨[.operand "1", .operator .plus]⟩ := by
    decide +kernel
  have hpair : ofFormula .standard "'é' @" = .ok ⟨[.operand "'é'", .operand "@"]⟩ := by
    decide +kernel
  have hsin : IsName (Utf8.bytes "sin") := by
    rw [show Utf8.bytes "sin" = ['s'.toUInt8, 'i'.toUInt8, 'n'.toUInt8] by decide +kernel]
    exact .intro rfl (by decide +kernel)
  obtain ⟨-, hoperator, -, hcall⟩ := ofFormula_parens hsum
  exact ⟨hsum, hoperator .power _ _ hpair, hcall "sin" hsin (by decide +kernel)⟩

end Postfix

end PathFormula
