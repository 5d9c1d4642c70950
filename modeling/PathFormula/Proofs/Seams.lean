import PathFormula.Proofs.Contexts
import PathFormula.Proofs.Lossless

/-!
# Where two formulas meet

A formula is read from front to back, and a lexeme looks one byte ahead and at one fact
about what came before.  Where a space stands between two formulas, neither reaches over
to the other: every lexeme of the first ends there, and the second is read as by itself,
unless it begins with a sign, which is the only byte that asks what came before.

## Main definitions

* `Reading.fault?` — the fault a reading ended with, if any.

## Main results

* `Reads.append` — what is read stays the same when more comes that no lexeme reaches
  over to.
* `Reading.ofBytes_seam` — the reading of two formulas with a space between them.
* `TokenList.ofFormula_append` — **the tokens of two formulas are those of the first and
  those of the second, and faults of the second keep their place in it.**
-/

namespace PathFormula

variable {start last : Bool} {offset : Nat} {bytes gap more left : List UInt8} {ps : List Piece}

/-! ### The first formula -/

theorem Lexeme.StandsBefore.append {l : Lexeme} {rest : List UInt8}
    (h : l.StandsBefore start rest) (hmore : AllEnd more) :
    l.StandsBefore start (rest ++ more) := by
  obtain ⟨hshape, hfollow, hends⟩ := standsBefore_iff.mp h
  exact standsBefore_iff.mpr ⟨hshape, hfollow, hends.append hmore⟩

/-- What is read stays the same when more comes that no lexeme reaches over to. -/
theorem Reads.append (h : Reads start bytes ps last left) (hmore : Lexeme.AllEnd more) :
    Reads start (bytes ++ more) ps last (left ++ more) := by
  induction ps generalizing start bytes with
  | nil =>
    obtain ⟨rfl, rfl⟩ := Reads.nil_iff.mp h
    exact .refl _ _
  | cons p ps ih =>
    obtain ⟨rest, rfl, hgap, hl, hps⟩ := Reads.cons_iff.mp h
    exact Reads.cons_iff.mpr ⟨rest ++ more, by simp, hgap, hl.append hmore, ih hps⟩

/-! ### The second formula -/

/-- Space in front goes to the first piece, whose lexeme has to be one that may follow on
what stands before now. -/
theorem Reads.widen {start' : Bool} {p : Piece} (hgap : Byte.IsGap gap)
    (h : Reads start bytes (p :: ps) last left) (hfollow : p.lexeme.MayFollow start') :
    Reads start' (gap ++ bytes) (⟨gap ++ p.gap, p.lexeme⟩ :: ps) last left := by
  obtain ⟨rest, rfl, hpgap, hl, hps⟩ := Reads.cons_iff.mp h
  obtain ⟨hshape, -, hends⟩ := Lexeme.standsBefore_iff.mp hl
  refine Reads.cons_iff.mpr ⟨rest, by simp, ?_, Lexeme.standsBefore_iff.mpr
    ⟨hshape, hfollow, hends⟩, hps⟩
  exact fun b hb => (List.mem_append.mp hb).elim (hgap b) (hpgap b)

/-- Only a sign asks whether an operand has just ended. -/
theorem Lexeme.read_eq_of_isSign_eq_false {b : UInt8} {rest : List UInt8}
    (hb : Byte.isSign b = false) (start start' : Bool) :
    read start b rest = read start' b rest := by
  unfold read
  cases hlead : Lead.ofByte b with
  | sign =>
    rw [Lead.ofByte_eq_iff, Lead.describes, hb] at hlead
    cases hlead
  | _ => rfl

namespace Reading

/-- The fault a reading ended with, if any. -/
def fault? (r : Reading) : Option Fault :=
  match r.ending with
  | .ok _ => none
  | .error fault => some fault

theorem fault?_mapError (qs : List Piece) (ending : Except Fault (List UInt8)) (f : Fault → Fault) :
    (Reading.mk qs (ending.mapError f)).fault? = (Reading.mk ps ending).fault?.map f := by
  cases ending <;> rfl

end Reading

/-- Where nothing more is read, nothing more is read with more bytes in front. -/
theorem Stops.shift {ending : Except Fault (List UInt8)} (h : Stops last offset left ending)
    (n : Nat) : Stops last (n + offset) left (ending.mapError (Fault.shift n)) := by
  cases h with
  | space hgap => exact .space hgap
  | fault hgap hb hl =>
    rw [Except.mapError, Fault.shift_shift, ← Nat.add_assoc]
    exact .fault hgap hb hl

/-- What stops at no sign stops behind space too, whatever ended there. -/
theorem Stops.widen {ending : Except Fault (List UInt8)} (hgap : Byte.IsGap gap)
    (hsign : ∀ b ∈ (left.dropWhile Byte.isSpace).head?, Byte.isSign b = false)
    (h : Stops last 0 left ending) (start : Bool) :
    ∃ ending', Stops start 0 (gap ++ left) ending' ∧
      (Reading.mk ps ending').fault? =
        (Reading.mk ps ending).fault?.map (Fault.shift gap.length) := by
  have happend {gap' : List UInt8} (hgap' : Byte.IsGap gap') : Byte.IsGap (gap ++ gap') :=
    fun b hb => (List.mem_append.mp hb).elim (hgap b) (hgap' b)
  cases h with
  | space hleft => exact ⟨_, .space (happend hleft), rfl⟩
  | @fault gap' rest b fault hgap' hb hl =>
    have hread : Lexeme.read start b rest = .error fault := by
      rw [Lexeme.read_eq_of_isSign_eq_false (hsign b ?_) start last, hl]
      rw [(Reading.span_isSpace hgap' hb).2]
      rfl
    have hstop : Stops start 0 _ _ := .fault (happend hgap') hb hread
    rw [List.append_assoc] at hstop
    refine ⟨_, hstop, ?_⟩
    simp [Reading.fault?, Fault.shift_shift]

namespace Reading

/-- A formula that begins with no sign is read behind space as it is by itself. -/
theorem exists_reads_behind (start : Bool) (hgap : Byte.IsGap gap)
    (hsign : ∀ b ∈ (bytes.dropWhile Byte.isSpace).head?, Byte.isSign b = false) :
    ∃ (r : Reading) (last : Bool) (left : List UInt8),
      Reads start (gap ++ bytes) r.pieces last left ∧
      Stops last (Piece.flatten r.pieces).length left r.ending ∧
      r.lexemes = (ofBytes bytes).lexemes ∧
      r.fault? = (ofBytes bytes).fault?.map (Fault.shift gap.length) := by
  obtain ⟨last, left, hreads, hstop⟩ := ofBytes_eq_iff.mp (rfl : ofBytes bytes = _)
  generalize ofBytes bytes = r at hreads hstop ⊢
  obtain ⟨ps, ending⟩ := r
  cases ps with
  | nil =>
    obtain ⟨rfl, rfl⟩ := Reads.nil_iff.mp hreads
    obtain ⟨ending', hstop', hfault⟩ := hstop.widen hgap hsign start
    exact ⟨⟨[], ending'⟩, start, _, .refl _ _, hstop', rfl, hfault⟩
  | cons p ps =>
    have hfollow : p.lexeme.MayFollow start := by
      intro b hb hbsign
      rw [← hreads.head?_dropWhile] at hb
      rw [hsign b hb] at hbsign
      cases hbsign
    refine ⟨⟨⟨gap ++ p.gap, p.lexeme⟩ :: ps, ending.mapError (Fault.shift gap.length)⟩, last, left,
      hreads.widen hgap hfollow, ?_, rfl, ?_⟩
    · have := hstop.shift gap.length
      simpa [Piece.bytes, Nat.add_assoc] using this
    · exact fault?_mapError _ _ _

/-- Two formulas with a space between them are read one after the other, if the second
begins with no sign. -/
theorem ofBytes_seam {trail : List UInt8} (h : (ofBytes bytes).ending = .ok trail)
    (hsign : ∀ b ∈ (more.dropWhile Byte.isSpace).head?, Byte.isSign b = false) :
    (ofBytes (bytes ++ ' '.toUInt8 :: more)).lexemes =
        (ofBytes bytes).lexemes ++ (ofBytes more).lexemes ∧
      (ofBytes (bytes ++ ' '.toUInt8 :: more)).fault? =
        (ofBytes more).fault?.map (Fault.shift (bytes.length + 1)) := by
  obtain ⟨hgap, last, hreads⟩ := exists_reads_of_ending h
  have hspace : Lexeme.AllEnd (' '.toUInt8 :: more) :=
    Lexeme.allEnd_of_endsWord (endsWord_cons rfl more)
  have htrail : Byte.IsGap (trail ++ [' '.toUInt8]) := by
    intro b hb
    rcases List.mem_append.mp hb with hb | hb
    · exact hgap b hb
    · rw [List.mem_singleton.mp hb]
      rfl
  obtain ⟨r, last', left', hreads', hstop', hlexemes, hfault⟩ :=
    exists_reads_behind last htrail hsign
  have hjoin := (hreads.append hspace).trans (by simpa using hreads')
  have hread : ofBytes (bytes ++ ' '.toUInt8 :: more) = ⟨(ofBytes bytes).pieces ++ r.pieces,
      r.ending.mapError (Fault.shift (Piece.flatten (ofBytes bytes).pieces).length)⟩ := by
    refine ofBytes_eq_iff.mpr ⟨last', left', hjoin, ?_⟩
    rw [Piece.flatten_append, List.length_append]
    exact hstop'.shift _
  rw [hread]
  constructor
  · simpa [lexemes] using hlexemes
  · have hlength := congrArg List.length hreads.bytes_append
    rw [List.length_append] at hlength
    rw [fault?_mapError, hfault, Option.map_map]
    congr 1
    funext fault
    rw [Function.comp, Fault.shift_shift, ← hlength, List.length_append, ← Nat.add_assoc]
    rfl

end Reading

namespace TokenList

/-- A formula has the tokens of its lexemes, unless its reading ended with a fault. -/
theorem ofFormula_eq (s : String) : ofFormula s =
    match (Reading.ofText s).fault? with
    | none => .ok ⟨(Reading.ofText s).lexemes.map Lexeme.text⟩
    | some fault => .error fault := by
  rw [ofFormula_eq_ofReading, ofReading, Reading.fault?]
  cases (Reading.ofText s).ending <;> rfl

/-- **Tokens compose, and so do faults.**

Two formulas with a space between them, of which the first has tokens and the second
begins with no sign, have the tokens of the first and then those of the second.  If the
second is at fault, so are both together, with the same fault as many bytes further on as
stand in front. -/
theorem ofFormula_append {a b : String} {ta : TokenList} (ha : ofFormula a = .ok ta)
    (hb : ∀ x ∈ ((Utf8.bytes b).dropWhile Byte.isSpace).head?, Byte.isSign x = false) :
    ofFormula (a ++ " " ++ b) =
      match ofFormula b with
      | .ok tb => .ok ⟨ta.tokens ++ tb.tokens⟩
      | .error fault => .error (fault.shift ((Utf8.bytes a).length + 1)) := by
  obtain ⟨trail, hending, rfl⟩ := ofFormula_eq_ok_iff.mp ha
  obtain ⟨hlexemes, hfault⟩ := Reading.ofBytes_seam hending hb
  have hbytes : Utf8.bytes (a ++ " " ++ b) = Utf8.bytes a ++ ' '.toUInt8 :: Utf8.bytes b := by
    simp only [Utf8.bytes_append, List.append_assoc]
    rfl
  rw [← hbytes] at hlexemes hfault
  rw [ofFormula_eq (a ++ " " ++ b), ofFormula_eq b]
  change (Reading.ofText (a ++ " " ++ b)).lexemes = _ at hlexemes
  change (Reading.ofText (a ++ " " ++ b)).fault? = (Reading.ofText b).fault?.map _ at hfault
  rw [hfault, hlexemes]
  cases (Reading.ofText b).fault? with
  | none => simp [Reading.ofText]
  | some fault => rfl

/-- A call with space behind it, and behind both a list or a string that is never closed. -/
theorem ofFormula_append_call :
    ofFormula ("f(é) " ++ " " ++ "[-1]") = .ok ⟨["f", "(", "é", ")", "[", "-1", "]"]⟩ ∧
      ofFormula ("f(é) " ++ " " ++ " 'é") = .error (.endOfInput 11) := by
  have hcall : ofFormula "f(é) " = .ok ⟨["f", "(", "é", ")"]⟩ := by decide +kernel
  have hlist : ofFormula "[-1]" = .ok ⟨["[", "-1", "]"]⟩ := by decide +kernel
  have hopen : ofFormula " 'é" = .error (.endOfInput 4) := by decide +kernel
  constructor
  · rw [ofFormula_append hcall (by rintro b ⟨⟩; rfl), hlist]
    rfl
  · rw [ofFormula_append hcall (by rintro b ⟨⟩; rfl), hopen]
    rfl

end TokenList

end PathFormula
