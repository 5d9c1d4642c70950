import PathFormula.Proofs.Layout
import PathFormula.Proofs.Stack

/-!
# What layout means to the postfix order

A formula that is laid out anew has the same lexemes at other places, and its words may be
written in other letters.  A builder looks words up in small letters, and it keeps places,
its own and those of open parentheses, for the faults it may have to report.  No release
looks at them, and none gets into the output.  So builders that differ in places only go
through two layouts of one formula side by side, and come to the same end.

## Main definitions

* `Pending.unplaced`, `Builder.unplaced` — what waits, and a builder, without the places.

## Main results

* `Builder.take_lower` — a builder does not tell the letters of words apart.
* `Builder.exists_step_unplaced`, `Builder.exists_run_unplaced` — builders that differ in
  places only take the same lexemes, and differ in places only then.
* `Postfix.ofFormula_of_keepsCalls` — **layout and the case of words mean nothing to the
  postfix order, as long as no call is taken apart.**
-/

namespace PathFormula

namespace Pending

/-- What waits, without its place. -/
def unplaced : Pending → Pending
  | openParen _ => openParen 0
  | p => p

@[simp] theorem asEntry_unplaced (p : Pending) : p.unplaced.asEntry = p.asEntry := by
  cases p <;> rfl

@[simp] theorem asEntry_comp_unplaced : asEntry ∘ unplaced = asEntry := funext asEntry_unplaced

@[simp] theorem yieldsTo_comp_unplaced (mark : Mark) :
    yieldsTo mark ∘ unplaced = yieldsTo mark := by
  funext p
  cases p <;> rfl

theorem exists_of_unplaced_eq {p : Pending} {opened : Nat}
    (h : p.unplaced = (openParen opened).unplaced) : ∃ offset, p = openParen offset := by
  cases p with
  | openParen offset => exact ⟨offset, rfl⟩
  | operator | function => cases h

variable {stack stack' : List Pending}

theorem filterMap_asEntry_eq (h : stack'.map unplaced = stack.map unplaced) :
    stack'.filterMap asEntry = stack.filterMap asEntry := by
  rw [← asEntry_comp_unplaced, ← List.filterMap_map, h, List.filterMap_map]

theorem forall_isSome_iff (h : stack'.map unplaced = stack.map unplaced) :
    (∀ p ∈ stack', p.asEntry.isSome) ↔ ∀ p ∈ stack, p.asEntry.isSome := by
  have hunplaced (stack : List Pending) :
      (∀ p ∈ stack.map unplaced, p.asEntry.isSome) ↔ ∀ p ∈ stack, p.asEntry.isSome := by simp
  rw [← hunplaced, h, hunplaced]

/-- The places of what waits decide nothing about what is released for an operator. -/
theorem span_yieldsTo_eq (mark : Mark) (h : stack'.map unplaced = stack.map unplaced) :
    (stack'.takeWhile (yieldsTo mark)).map unplaced =
        (stack.takeWhile (yieldsTo mark)).map unplaced ∧
      (stack'.dropWhile (yieldsTo mark)).map unplaced =
        (stack.dropWhile (yieldsTo mark)).map unplaced := by
  rw [← yieldsTo_comp_unplaced, ← List.takeWhile_map, ← List.takeWhile_map, ← List.dropWhile_map,
    ← List.dropWhile_map, h]
  exact ⟨rfl, rfl⟩

end Pending

namespace Builder

variable {v : Vocabulary} {b b' c : Builder} {offset : Nat} {l : Lexeme} {ps qs : List Piece}
  {p q : Piece}

/-- A builder without the places it keeps. -/
def unplaced (b : Builder) : Builder :=
  ⟨0, b.stack.map Pending.unplaced, b.output, b.afterOperand⟩

theorem unplaced_eq_iff : c.unplaced = b.unplaced ↔
    c.stack.map Pending.unplaced = b.stack.map Pending.unplaced ∧ c.output = b.output ∧
      c.afterOperand = b.afterOperand := by
  simp [unplaced]

/-- A builder does not tell the letters of words apart. -/
theorem take_lower (v : Vocabulary) (b : Builder) (offset : Nat) (l : Lexeme) :
    b.take v offset l.lower = b.take v offset l := by
  cases l with
  | word bs call =>
    have htext : Lexeme.wordText (bs.map Byte.lower) = Lexeme.wordText bs :=
      Lexeme.text_lower (.word bs call)
    cases call <;> simp only [Lexeme.lower, take, htext]
  | _ => rfl

/-- How a lexeme is taken depends on no place. -/
theorem Takes.exists_unplaced (h : Takes v b offset l b') (hb : c.unplaced = b.unplaced)
    (offset' : Nat) : ∃ c', Takes v c offset' l c' ∧ c'.unplaced = b'.unplaced := by
  obtain ⟨hstack, houtput, hafter⟩ := unplaced_eq_iff.mp hb
  cases h with
  | @operator mark hoperand =>
    obtain ⟨htake, hdrop⟩ := Pending.span_yieldsTo_eq mark hstack
    refine ⟨_, .operator (hafter.trans hoperand), unplaced_eq_iff.mpr ⟨?_, ?_, hafter⟩⟩
    · simp only [List.map_cons, hdrop]
    · simp only [Pending.filterMap_asEntry_eq htake, houtput]
  | operand hl hv =>
    exact ⟨_, .operand hl hv, unplaced_eq_iff.mpr
      ⟨hstack, congrArg (Entry.operand l.text :: ·) houtput, hafter⟩⟩
  | function hv =>
    exact ⟨_, .function hv, unplaced_eq_iff.mpr
      ⟨congrArg (List.cons _) hstack, houtput, hafter⟩⟩
  | openParen =>
    exact ⟨_, .openParen, unplaced_eq_iff.mpr
      ⟨congrArg (List.cons _) hstack, houtput, hafter⟩⟩
  | @closeParen opened above below hcut habove =>
    rw [hcut, List.map_append, List.map_cons] at hstack
    -- the partner stands as deep on the other stack, with a place of its own
    obtain ⟨above', back, hcut', habove', hback⟩ := List.map_eq_append_iff.mp hstack
    obtain ⟨paren, below', rfl, hparen, hbelow'⟩ := List.map_eq_cons_iff.mp hback
    obtain ⟨opened', rfl⟩ := Pending.exists_of_unplaced_eq hparen
    refine ⟨_, .closeParen hcut' ((Pending.forall_isSome_iff habove').mpr habove),
      unplaced_eq_iff.mpr ⟨hbelow', ?_, hafter⟩⟩
    simp only [Pending.filterMap_asEntry_eq habove', houtput]

/-- Builders that differ in places only can take what differs in the case of words only. -/
theorem exists_step_unplaced (h : b.step v p = .ok b') (hb : c.unplaced = b.unplaced)
    (hl : q.lexeme.lower = p.lexeme.lower) :
    ∃ c', c.step v q = .ok c' ∧ c'.unplaced = b'.unplaced := by
  obtain ⟨after, htakes, rfl⟩ := step_eq_ok_iff.mp h
  obtain ⟨after', htakes', hafter⟩ := htakes.exists_unplaced hb (c.offset + q.gap.length)
  have htake : c.take v (c.offset + q.gap.length) q.lexeme = .ok after' := by
    rw [← take_lower, hl, take_lower]
    exact take_eq_ok_iff.mpr htakes'
  have hends : q.lexeme.endsOperand = p.lexeme.endsOperand := by
    rw [← Lexeme.endsOperand_lower, hl, Lexeme.endsOperand_lower]
  obtain ⟨hstack, houtput, -⟩ := unplaced_eq_iff.mp hafter
  exact ⟨_, step_eq_ok_iff.mpr ⟨after', take_eq_ok_iff.mp htake, rfl⟩,
    unplaced_eq_iff.mpr ⟨hstack, houtput, hends⟩⟩

/-- So they can go through two layouts of the same lexemes. -/
theorem exists_run_unplaced (h : b.run v ps = .ok b') (hb : c.unplaced = b.unplaced)
    (hls : (qs.map Piece.lexeme).map Lexeme.lower = (ps.map Piece.lexeme).map Lexeme.lower) :
    ∃ c', c.run v qs = .ok c' ∧ c'.unplaced = b'.unplaced := by
  induction ps generalizing b c qs with
  | nil =>
    cases h
    obtain rfl : qs = [] := by simpa using hls
    exact ⟨c, rfl, hb⟩
  | cons p ps ih =>
    obtain ⟨b₁, hstep, hrun⟩ := run_cons.mp h
    cases qs with
    | nil => cases hls
    | cons q qs =>
      obtain ⟨hl, hls⟩ := List.cons.inj hls
      obtain ⟨c₁, hstep', hc₁⟩ := exists_step_unplaced hstep hb hl
      obtain ⟨c', hrun', hc'⟩ := ih hrun hc₁ hls
      exact ⟨c', run_cons.mpr ⟨c₁, hstep', hrun'⟩, hc'⟩

/-- What a formula ends with depends on no place. -/
theorem finish_of_unplaced_eq {length : Nat} {p : Postfix} (h : b.finish length = .ok p)
    (hb : c.unplaced = b.unplaced) (length' : Nat) : c.finish length' = .ok p := by
  obtain ⟨hstack, houtput, -⟩ := unplaced_eq_iff.mp hb
  obtain ⟨hsome, hne, hentries⟩ := finish_eq_ok_iff.mp h
  refine finish_eq_ok_iff.mpr ⟨(Pending.forall_isSome_iff hstack).mpr hsome, hne, ?_⟩
  rw [hentries, houtput, Pending.filterMap_asEntry_eq hstack]

end Builder

namespace Postfix

/-- **Layout and the case of words mean nothing to the postfix order, as long as no call is
taken apart.**

A formula that has a postfix order is cut into stretches in one way.  However they are laid
out anew, with other space at both ends, with space between any two of them but a called
word and its parenthesis, and with the bare words among them in other letters, the text has
the same postfix order under the same vocabulary, which may tell the cases of letters
apart. -/
theorem ofFormula_of_keepsCalls {v : Vocabulary} {s : String} {p : Postfix}
    (h : ofFormula v s = .ok p) :
    (∃ segs trail, IsSplit s segs trail) ∧
      ∀ segs trail news trail', IsSplit s segs trail → IsRelaid news segs →
        KeepsCalls news segs → isBlank trail' →
        ofFormula v (Segment.join news ++ trail') = .ok p := by
  obtain ⟨b, gap, hrun, hending, hfinish⟩ := ofFormula_eq_ok_iff.mp h
  refine ⟨TokenList.exists_isSplit (tokens_of_ofFormula h), ?_⟩
  intro segs trail news trail' hsplit hrelaid hcalls htrail
  obtain ⟨last, left, hreads, hstop⟩ := Reading.ofBytes_eq_iff.mp (rfl : Reading.ofText s = _)
  rw [hending] at hstop
  cases hstop with
  | space hgap =>
    obtain ⟨qs, last', hqs, -, hlowers⟩ :=
      exists_reads_relaid hreads hsplit.holds hrelaid htrail hreads.mayFollow
    have hreading : Reading.ofText (Segment.join news ++ trail') = ⟨qs, .ok (Utf8.bytes trail')⟩ :=
      Reading.ofBytes_eq_iff.mpr ⟨last', _, hqs, .space (isGap_bytes htrail)⟩
    obtain ⟨c, hrun', hc⟩ :=
      Builder.exists_run_unplaced hrun rfl (hlowers hcalls (endsWord_of_isGap hgap))
    rw [ofFormula_eq_ok_iff, hreading]
    exact ⟨c, _, hrun', rfl, Builder.finish_of_unplaced_eq hfinish hc _⟩

/-- A call with space where there may be any, in capitals, under a vocabulary that knows small
letters only. -/
theorem ofFormula_of_keepsCalls_call :
    let v := Vocabulary.ofLists ["sin"] ["x"]
    ofFormula v "Sin(x)!-1" = .ok ⟨[.operand "x", .function "sin", .operator .factorial,
        .operand "1", .operator .minus]⟩ ∧
      ofFormula v "\n SIN( X) !\t- 1\r" = .ok ⟨[.operand "x", .function "sin",
        .operator .factorial, .operand "1", .operator .minus]⟩ := by
  intro v
  let segs : List Segment :=
    [⟨"", "Sin"⟩, ⟨"", "("⟩, ⟨"", "x"⟩, ⟨"", ")"⟩, ⟨"", "!"⟩, ⟨"", "-"⟩, ⟨"", "1"⟩]
  let news : List Segment :=
    [⟨"\n ", "SIN"⟩, ⟨"", "("⟩, ⟨" ", "X"⟩, ⟨"", ")"⟩, ⟨" ", "!"⟩, ⟨"\t", "-"⟩, ⟨" ", "1"⟩]
  have h : ofFormula v "Sin(x)!-1" = .ok ⟨[.operand "x", .function "sin", .operator .factorial,
      .operand "1", .operator .minus]⟩ := by decide +kernel
  have hsplit : IsSplit "Sin(x)!-1" segs "" := ⟨by decide +kernel, rfl, by decide +kernel⟩
  have hrelaid : IsRelaid news segs := ⟨by decide +kernel, by decide +kernel, by decide +kernel⟩
  have hcalls : KeepsCalls news segs := by
    intro i word paren hword hparen hbare hgap hsource seg hseg
    match i with
    | 0 => cases hseg; rfl
    | 1 | 2 | 3 | 4 | 5 => cases hparen; exact absurd hsource (by decide)
    | i + 6 => cases hparen
  exact ⟨h, (ofFormula_of_keepsCalls h).2 segs "" news "\r" hsplit hrelaid hcalls rfl⟩

end Postfix

end PathFormula
