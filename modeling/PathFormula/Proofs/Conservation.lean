import PathFormula.Proofs.Lossless
import PathFormula.Proofs.Stack

/-!
# Ordering loses nothing

A formula in postfix order has the tokens of the formula, apart from its
parentheses, each as often as it occurs there, and its operands in the order they
are written in.  What the builder puts out and what it keeps waiting always add
up to what it has taken.

The tokens and the postfix order come from two drivers, each with its own way over the
bytes.  Both follow the reading of the formula, so what the lexer refuses the compiler
refuses as well.

## Main definitions

* `Builder.held` — the entries a builder has put out or keeps waiting.
* `Builder.Holds ls b` — what `b` holds when it has taken the lexemes `ls`.

## Main results

* `Takes.held_perm`, `Takes.operands_eq`, `Takes.opens_add`, `Takes.equals_mem_iff`
  — what one step conserves.
* `holds_run` — what a run conserves.
* `perm_tokens_of_ofFormula` — **a formula in postfix order has the tokens of the
  formula, and a formula without tokens has no postfix order.**
-/

namespace PathFormula

namespace Builder

variable {v : Vocabulary} {b b' : Builder} {offset : Nat} {l : Lexeme}

/-- The entries a builder has put out or keeps waiting. -/
def held (b : Builder) : List Entry := b.output ++ b.stack.filterMap Pending.asEntry

/-- Releasing moves entries from the stack to the output. -/
theorem release_perm (above below : List Pending) (output : List Entry) :
    ((above.filterMap Pending.asEntry).reverse ++ output ++ below.filterMap Pending.asEntry).Perm
      (output ++ (above ++ below).filterMap Pending.asEntry) := by
  rw [List.filterMap_append, ← List.append_assoc]
  refine List.Perm.append_right _ ?_
  calc ((above.filterMap Pending.asEntry).reverse ++ output).Perm
        (above.filterMap Pending.asEntry ++ output) := (List.reverse_perm _).append_right _
    _ |>.Perm (output ++ above.filterMap Pending.asEntry) := List.perm_append_comm

/-- Nothing that waits is an operand. -/
theorem filter_isOperand_waiting (ps : List Pending) :
    (ps.filterMap Pending.asEntry).filter Entry.isOperand = [] := by
  rw [List.filter_eq_nil_iff]
  intro entry hentry
  obtain ⟨p, -, hp⟩ := List.mem_filterMap.mp hentry
  simp [Pending.isOperand_of_asEntry hp]

/-! ### What one step conserves -/

/-- The entry of the lexeme is added to those that are held. -/
theorem Takes.held_perm (h : Takes v b offset l b') :
    b'.held.Perm (b.held ++ l.asEntry.toList) := by
  cases h with
  | @operator mark hb =>
    have hsplit := release_perm (b.stack.takeWhile (Pending.yieldsTo mark))
      (b.stack.dropWhile (Pending.yieldsTo mark)) b.output
    rw [List.takeWhile_append_dropWhile] at hsplit
    rcases mark with op | _
    · refine List.Perm.trans ?_ (hsplit.append_right [.operator op])
      rw [List.append_assoc _ _ [Entry.operator op]]
      refine List.Perm.append_left _ ?_
      exact (List.perm_append_singleton _ _).symm
    · simpa [held, Lexeme.asEntry, Pending.asEntry, List.filterMap_cons] using hsplit
  | operand hl hv =>
    rw [Lexeme.asEntry_of_isOperand hl]
    exact (List.perm_append_singleton _ _).symm
  | function hv =>
    show (b.output ++ (Entry.function _ :: _)).Perm (b.output ++ _ ++ [Entry.function _])
    rw [List.append_assoc]
    exact (List.perm_append_singleton _ _).symm.append_left _
  | openParen => simp [held, push, Lexeme.asEntry, Pending.asEntry, List.filterMap_cons]
  | @closeParen opened above below hstack habove =>
    have hsplit := release_perm above below b.output
    simpa [held, hstack, Lexeme.asEntry, Pending.asEntry, List.filterMap_cons] using hsplit

/-- Operands go to the output at once, behind those that are there. -/
theorem Takes.operands_eq (h : Takes v b offset l b') :
    b'.output.reverse.filter Entry.isOperand =
      b.output.reverse.filter Entry.isOperand ++ l.asEntry.toList.filter Entry.isOperand := by
  cases h with
  | @operator mark hb =>
    rcases mark with op | _ <;> simp [filter_isOperand_waiting, Lexeme.asEntry, Entry.isOperand]
  | operand hl hv =>
    rw [Lexeme.asEntry_of_isOperand hl]
    simp [emit]
  | function hv => simp [push, Lexeme.asEntry, Entry.isOperand]
  | openParen => simp [push, Lexeme.asEntry]
  | closeParen hstack habove => simp [filter_isOperand_waiting, Lexeme.asEntry]

theorem countP_isOpenParen_eq_zero {ps : List Pending} (h : ∀ p ∈ ps, p.asEntry.isSome) :
    ps.countP Pending.isOpenParen = 0 := by
  rw [List.countP_eq_zero]
  intro p hp
  simp [isOpenParen_eq_false (h p hp)]

/-- The open parentheses that wait are those that were not closed. -/
theorem Takes.opens_add (h : Takes v b offset l b') :
    b'.stack.countP Pending.isOpenParen + [l].count .closeParen =
      b.stack.countP Pending.isOpenParen + [l].count .openParen := by
  cases h with
  | @operator mark hb =>
    have hzero : (b.stack.takeWhile (Pending.yieldsTo mark)).countP Pending.isOpenParen = 0 :=
      countP_isOpenParen_eq_zero fun p hp =>
        Pending.isSome_asEntry_of_yieldsTo (List.mem_takeWhile_imp hp)
    have hsplit := congrArg (List.countP Pending.isOpenParen)
      (List.takeWhile_append_dropWhile (p := Pending.yieldsTo mark) (l := b.stack))
    rw [List.countP_append, hzero, Nat.zero_add] at hsplit
    simp [Pending.isOpenParen, hsplit]
  | operand hl hv =>
    cases l with
    | number | quoted | reference => simp [emit]
    | word bytes call => simp [emit]
    | operator | openParen | closeParen | dot | symbol => cases hl
  | function hv => simp [push, Pending.isOpenParen]
  | openParen => simp [push, Pending.isOpenParen, List.countP_cons]
  | closeParen hstack habove =>
    simp [hstack, countP_isOpenParen_eq_zero habove, Pending.isOpenParen, List.countP_cons]

/-- An equals sign that was taken never leaves the stack. -/
theorem Takes.equals_mem_iff (h : Takes v b offset l b') :
    .operator .equals ∈ b'.stack ↔ .operator .equals ∈ b.stack ∨ l = .operator .equals := by
  -- what is released has an entry, and the equals sign has none
  have hrelease {ps : List Pending} (hps : ∀ p ∈ ps, p.asEntry.isSome) :
      .operator .equals ∉ ps := fun hmem => by cases hps _ hmem
  cases h with
  | @operator mark hb =>
    have hstay : .operator .equals ∉ b.stack.takeWhile (Pending.yieldsTo mark) :=
      hrelease fun p hp => Pending.isSome_asEntry_of_yieldsTo (List.mem_takeWhile_imp hp)
    have hsplit : .operator .equals ∈ b.stack.dropWhile (Pending.yieldsTo mark) ↔
        .operator .equals ∈ b.stack := by
      rw [← List.takeWhile_append_dropWhile (p := Pending.yieldsTo mark) (l := b.stack),
        List.mem_append]
      simp [hstay]
    rw [List.mem_cons, hsplit, Pending.operator.injEq, Lexeme.operator.injEq, or_comm, eq_comm]
  | operand hl hv =>
    have hl' : l ≠ .operator .equals := by
      rintro rfl
      cases hl
    simp [emit, hl']
  | function hv => simp [push]
  | openParen => simp [push]
  | closeParen hstack habove => simp [hstack, hrelease habove]

/-- The only stray lexeme that can be taken is the equals sign. -/
theorem Takes.eq_equals_of_isStray (h : Takes v b offset l b') (hl : l.isStray) :
    l = .operator .equals := by
  cases h with
  | @operator mark hb =>
    rcases mark with op | _
    · cases hl
    · rfl
  | operand hoperand hv =>
    cases l with
    | number | quoted | reference | word => cases hl
    | operator | openParen | closeParen | dot | symbol => cases hoperand
  | function | openParen | closeParen => cases hl

theorem Takes.afterOperand_eq {mark : Mark} (h : Takes v b offset (.operator mark) b') :
    b.afterOperand = true := by
  cases h with
  | operator hb => exact hb
  | operand hl hv => cases hl

/-! ### What a run conserves -/

/-- What a builder holds when it has taken the lexemes `ls`. -/
structure Holds (ls : List Lexeme) (b : Builder) : Prop where
  afterOperand_eq : b.afterOperand = (ls.getLast?.map Lexeme.endsOperand).getD false
  held_perm : b.held.Perm (ls.filterMap Lexeme.asEntry)
  operands_eq : b.output.reverse.filter Entry.isOperand =
    (ls.filterMap Lexeme.asEntry).filter Entry.isOperand
  opens_add : b.stack.countP Pending.isOpenParen + ls.count .closeParen = ls.count .openParen
  equals_mem_iff : .operator .equals ∈ b.stack ↔ .operator .equals ∈ ls
  eq_equals_of_isStray : ∀ l ∈ ls, l.isStray → l = .operator .equals

theorem holds_start : Holds [] start where
  afterOperand_eq := rfl
  held_perm := .refl _
  operands_eq := rfl
  opens_add := rfl
  equals_mem_iff := by simp [start]
  eq_equals_of_isStray := by simp

/-- A step adds its lexeme to what is held. -/
theorem holds_step {ls : List Lexeme} {p : Piece} (hb : Holds ls b)
    (h : b.step v p = .ok b') : Holds (ls ++ [p.lexeme]) b' := by
  obtain ⟨after, htake, rfl⟩ := step_eq_ok_iff.mp h
  have hentry : ([p.lexeme].filterMap Lexeme.asEntry) = p.lexeme.asEntry.toList := by
    cases hl : p.lexeme.asEntry <;> simp [hl]
  refine ⟨by simp, ?_, ?_, ?_, ?_, ?_⟩
  · rw [List.filterMap_append, hentry]
    exact htake.held_perm.trans (hb.held_perm.append_right _)
  · rw [List.filterMap_append, hentry, List.filter_append, ← hb.operands_eq]
    exact htake.operands_eq
  · have hopens := htake.opens_add
    have hbefore := hb.opens_add
    rw [List.count_append, List.count_append]
    show after.stack.countP Pending.isOpenParen + _ = _
    omega
  · rw [List.mem_append, ← hb.equals_mem_iff, List.mem_singleton, eq_comm]
    exact htake.equals_mem_iff.trans (by rw [eq_comm])
  · intro l hl hstray
    rcases List.mem_append.mp hl with hl | hl
    · exact hb.eq_equals_of_isStray l hl hstray
    · rw [List.mem_singleton.mp hl] at hstray ⊢
      exact htake.eq_equals_of_isStray hstray

/-- A run adds its lexemes to what is held. -/
theorem holds_run {ls : List Lexeme} {ps : List Piece} (hb : Holds ls b)
    (h : b.run v ps = .ok b') : Holds (ls ++ ps.map Piece.lexeme) b' := by
  induction ps generalizing b ls with
  | nil =>
    cases h
    simpa using hb
  | cons p ps ih =>
    rw [run] at h
    split at h
    next after hafter =>
      have := ih (holds_step hb hafter) h
      rwa [List.append_assoc] at this
    next => cases h

/-- Where all that waits can be released, no stray lexeme was taken. -/
theorem Holds.isStray_eq_false {ls : List Lexeme} (hb : Holds ls b)
    (h : ∀ p ∈ b.stack, p.asEntry.isSome) : ∀ l ∈ ls, l.isStray = false := by
  intro l hl
  by_contra hstray
  obtain rfl := hb.eq_equals_of_isStray l hl (by simpa using hstray)
  cases h _ (hb.equals_mem_iff.mpr hl)

/-- If no stray lexeme was taken, no equals sign waits. -/
theorem Holds.equals_not_mem {ls : List Lexeme} (hb : Holds ls b)
    (h : ∀ l ∈ ls, l.isStray = false) : .operator .equals ∉ b.stack :=
  fun hmem => Bool.noConfusion (h _ (hb.equals_mem_iff.mp hmem))

end Builder

/-! ### Texts of entries and of tokens

A token that is a parenthesis is found by its text.  No other lexeme has this
text, because the text of a lexeme begins with a byte that announces it. -/

namespace Lexeme

/-- The text of a lexeme begins with a byte that announces what the lexeme is. -/
theorem exists_lead_text {afterOperand : Bool} {b : UInt8} {rest after : List UInt8}
    {l : Lexeme} {s : String} (h : IsRead afterOperand b rest l after)
    (hs : Utf8.bytes s = l.bytes) :
    ∃ b' more, Utf8.bytes l.text = b' :: more ∧ Lead.ofByte b' = Lead.ofByte b := by
  obtain ⟨more, hmore⟩ := bytes_eq_cons_of_isRead h
  by_cases hl : ∃ bs call, l = .word bs call
  · obtain ⟨bs, call, rfl⟩ := hl
    have hword := (lead_eq_word_iff_of_isRead h).mpr ⟨_, _, rfl⟩
    obtain rfl : bs = b :: more := hmore
    have hbytes : Utf8.bytes (wordText (b :: more)) = (b :: more).map Byte.lower := by
      rw [← show Utf8.bytes s = b :: more from hs, bytes_wordText]
    exact ⟨_, _, hbytes, (Lead.ofByte_lower_iff.mpr hword).trans hword.symm⟩
  · rw [text_eq_of_bytes hs fun bs call hw => hl ⟨bs, call, hw⟩, hs]
    exact ⟨b, more, hmore, rfl⟩

/-- Only a parenthesis has the text of one. -/
theorem eq_paren_of_text {afterOperand : Bool} {b : UInt8} {rest after : List UInt8}
    {l : Lexeme} {s : String} (h : IsRead afterOperand b rest l after)
    (hs : Utf8.bytes s = l.bytes) :
    (l.text = "(" → l = .openParen) ∧ (l.text = ")" → l = .closeParen) := by
  have hallows := allows_of_isRead h
  obtain ⟨b', more, hb', hlead⟩ := exists_lead_text h hs
  rw [← hlead] at hallows
  constructor
  · intro htext
    have hopen : Utf8.bytes "(" = ['('.toUInt8] := rfl
    rw [htext, hopen] at hb'
    rw [← (List.cons.inj hb').1] at hallows
    cases l with
    | openParen => rfl
    | _ => cases hallows
  · intro htext
    have hclose : Utf8.bytes ")" = [')'.toUInt8] := rfl
    rw [htext, hclose] at hb'
    rw [← (List.cons.inj hb').1] at hallows
    cases l with
    | closeParen => rfl
    | _ => cases hallows

theorem text_of_asEntry {l : Lexeme} {entry : Entry} (h : l.asEntry = some entry) :
    entry.text = l.text := by
  cases l with
  | operator mark => rcases mark with op | _ <;> cases h; rfl
  | word bytes call => cases call <;> cases h <;> rfl
  | number | quoted | reference => cases h; rfl
  | openParen | closeParen | dot | symbol => cases h

theorem isOperand_of_asEntry {l : Lexeme} {entry : Entry} (h : l.asEntry = some entry) :
    entry.isOperand = l.isOperand := by
  cases l with
  | operator mark => rcases mark with op | _ <;> cases h; rfl
  | word bytes call => cases call <;> cases h <;> rfl
  | number | quoted | reference => cases h; rfl
  | openParen | closeParen | dot | symbol => cases h

/-- Of the lexemes a formula can hold, the parentheses alone become no entry. -/
theorem eq_paren_of_asEntry {l : Lexeme} (h : l.asEntry = none) (hl : l.isStray = false) :
    l = .openParen ∨ l = .closeParen := by
  cases l with
  | operator mark => rcases mark with op | _ <;> cases h; cases hl
  | word bytes call => cases call <;> cases h
  | number | quoted | reference => cases h
  | openParen => exact .inl rfl
  | closeParen => exact .inr rfl
  | dot | symbol => cases hl

/-- The entries of lexemes have the texts of those that are no parentheses. -/
theorem map_text_asEntry {ls : List Lexeme} (hstray : ∀ l ∈ ls, l.isStray = false)
    (hparen : ∀ l ∈ ls, (l.text = "(" → l = .openParen) ∧ (l.text = ")" → l = .closeParen)) :
    (ls.filterMap asEntry).map Entry.text =
      (ls.map text).filter fun t => t != "(" && t != ")" := by
  induction ls with
  | nil => rfl
  | cons l ls ih =>
    have ih := ih (fun l hl => hstray l (List.mem_cons_of_mem _ hl))
      (fun l hl => hparen l (List.mem_cons_of_mem _ hl))
    cases hentry : l.asEntry with
    | some entry =>
      have hl : l.text ≠ "(" ∧ l.text ≠ ")" := by
        constructor
        · intro htext
          rw [(hparen l List.mem_cons_self).1 htext] at hentry
          cases hentry
        · intro htext
          rw [(hparen l List.mem_cons_self).2 htext] at hentry
          cases hentry
      rw [List.filterMap_cons_some hentry, List.map_cons, List.map_cons, ih,
        text_of_asEntry hentry, List.filter_cons_of_pos (by simpa using hl)]
    | none =>
      rw [List.filterMap_cons_none hentry, ih, List.map_cons]
      rcases eq_paren_of_asEntry hentry (hstray l List.mem_cons_self) with rfl | rfl <;> rfl

/-- The operands among the entries are those among the lexemes. -/
theorem map_text_filter_isOperand (ls : List Lexeme) :
    ((ls.filterMap asEntry).filter Entry.isOperand).map Entry.text =
      (ls.filter isOperand).map text := by
  induction ls with
  | nil => rfl
  | cons l ls ih =>
    cases hentry : l.asEntry with
    | some entry =>
      have hoperand := isOperand_of_asEntry hentry
      rw [List.filterMap_cons_some hentry]
      by_cases hl : l.isOperand
      · rw [List.filter_cons_of_pos (hoperand.trans hl), List.filter_cons_of_pos hl,
          List.map_cons, List.map_cons, ih, text_of_asEntry hentry]
      · rw [List.filter_cons_of_neg (by rwa [hoperand]), List.filter_cons_of_neg hl, ih]
    | none =>
      have hl : ¬ l.isOperand := fun hl => by simp [asEntry_of_isOperand hl] at hentry
      rw [List.filterMap_cons_none hentry, List.filter_cons_of_neg hl, ih]

end Lexeme

/-- A lexeme of a text was read somewhere, from a stretch of the text. -/
theorem Reading.exists_isRead_of_mem {s : String} {l : Lexeme} (hl : l ∈ (ofText s).lexemes) :
    ∃ afterOperand b rest after source, Lexeme.IsRead afterOperand b rest l after ∧
      Utf8.bytes source = l.bytes := by
  obtain ⟨last, left, hreads, -⟩ := exists_reads_ofText s
  obtain ⟨segs, trail, -, -, hholds⟩ := exists_segments_of_reads hreads rfl
  obtain ⟨p, hp, rfl⟩ := List.mem_map.mp hl
  obtain ⟨afterOperand, b, rest, after, hread⟩ := hreads.exists_isRead p hp
  have hmem : p.lexeme.bytes ∈ segs.map (fun seg => Utf8.bytes seg.source) :=
    map_source_eq hholds ▸ List.mem_map_of_mem hl
  obtain ⟨seg, -, hseg⟩ := List.mem_map.mp hmem
  exact ⟨afterOperand, b, rest, after, seg.source, hread, hseg⟩

/-- In a reading, only parentheses have the texts of parentheses. -/
theorem Reading.eq_paren_of_mem (s : String) : ∀ l ∈ (ofText s).lexemes,
    (l.text = "(" → l = .openParen) ∧ (l.text = ")" → l = .closeParen) := by
  intro l hl
  obtain ⟨afterOperand, b, rest, after, source, hread, hsource⟩ := exists_isRead_of_mem hl
  exact Lexeme.eq_paren_of_text hread hsource

namespace Postfix

/-- **Ordering loses nothing.**

A formula in postfix order has the tokens of the formula that are no parentheses,
each as often as it occurs there, and its operands stand in the order in which
they are written.  A text without tokens has no postfix order, whatever the
vocabulary. -/
theorem perm_tokens_of_ofFormula (v : Vocabulary) (s : String) :
    (∀ p, ofFormula v s = .ok p →
      ∃ ts, TokenList.ofFormula s = .ok ts ∧
        p.toTokens.tokens.Perm (ts.tokens.filter fun t => t != "(" && t != ")") ∧
        ts.tokens = (Reading.ofText s).lexemes.map Lexeme.text ∧
        (p.entries.filter Entry.isOperand).map Entry.text =
          ((Reading.ofText s).lexemes.filter Lexeme.isOperand).map Lexeme.text) ∧
    ∀ fault, TokenList.ofFormula s = .error fault → ∃ fault', ofFormula v s = .error fault' := by
  -- that the two drivers agree is their common reading; what is conserved is up to the builder
  constructor
  · intro p h
    obtain ⟨b, gap, hrun, -, hfinish⟩ := ofFormula_eq_ok_iff.mp h
    obtain ⟨hstack, -, hentries⟩ := Builder.finish_eq_ok_iff.mp hfinish
    have hb : Builder.Holds (Reading.ofText s).lexemes b :=
      Builder.holds_run Builder.holds_start hrun
    refine ⟨_, tokens_of_ofFormula h, ?_, rfl, ?_⟩
    · -- the entries are those that are held at the end
      have hheld : p.entries.Perm ((Reading.ofText s).lexemes.filterMap Lexeme.asEntry) := by
        rw [hentries]
        exact ((List.reverse_perm _).append_right _).trans hb.held_perm
      have htexts := Lexeme.map_text_asEntry (hb.isStray_eq_false hstack)
        (Reading.eq_paren_of_mem s)
      exact (hheld.map Entry.text).trans (.of_eq htexts)
    · -- none of those that waited is an operand
      have hwait : (b.stack.filterMap Pending.asEntry).filter Entry.isOperand = [] :=
        Builder.filter_isOperand_waiting _
      rw [hentries, List.filter_append, hwait, List.append_nil, hb.operands_eq]
      exact Lexeme.map_text_filter_isOperand _
  · intro fault hfault
    cases h : ofFormula v s with
    | error fault' => exact ⟨fault', rfl⟩
    | ok p => simp [tokens_of_ofFormula h] at hfault

/-- A product with a sum in parentheses, and a string without its end. -/
theorem perm_tokens_of_product :
    ofFormula .standard "2 * (pi + 3)" =
        .ok ⟨[.operand "2", .operand "pi", .operand "3", .operator .plus, .operator .times]⟩ ∧
      ["2", "pi", "3", "+", "*"].Perm ["2", "*", "pi", "+", "3"] ∧
      ∃ fault', ofFormula .standard "2 * \"a" = .error fault' := by
  have hok : ofFormula .standard "2 * (pi + 3)" =
      .ok ⟨[.operand "2", .operand "pi", .operand "3", .operator .plus, .operator .times]⟩ := by
    decide +kernel
  have htokens : TokenList.ofFormula "2 * (pi + 3)" =
      .ok ⟨["2", "*", "(", "pi", "+", "3", ")"]⟩ := by decide +kernel
  have hfault : TokenList.ofFormula "2 * \"a" = .error (.endOfInput 6) := by decide +kernel
  obtain ⟨ts, hts, hperm, -⟩ := (perm_tokens_of_ofFormula .standard "2 * (pi + 3)").1 _ hok
  rw [htokens] at hts
  cases hts
  exact ⟨hok, hperm, (perm_tokens_of_ofFormula .standard "2 * \"a").2 _ hfault⟩

end Postfix

end PathFormula
