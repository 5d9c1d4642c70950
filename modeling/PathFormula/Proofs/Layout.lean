import PathFormula.Proofs.Contexts
import PathFormula.Proofs.Lossless

/-!
# What layout means

Space in front of a lexeme, as long as there is some, and the case of the letters of a
word mean nothing.  A text is laid out anew by writing other space where its stretches
meet, which may be done even where there was none, and by writing the words among them
in other letters.  The lexemes are then the same, but that a word in front of an opening
parenthesis is no longer called when space comes between.

## Main definitions

* `IsSplit s segs trail` — the formula `s` was cut into the stretches `segs`.
* `Segment.Respells`, `Segment.Respaces`, `IsRelaid` — the ways to lay stretches out anew.
* `KeepsCalls` — that no space comes between a called word and its parenthesis.
* `Lexeme.lower` — a lexeme in small letters, if it is a word.
* `Segment.spaced` — the tokens of stretches, laid out with one space between them.

## Main results

* `Lexeme.endsBefore_map_lower` — the case of the letter that follows means nothing.
* `exists_reads_relaid` — stretches laid out anew are read with the same texts, and as the
  same lexemes but for the case of words, if they keep calls.
* `TokenList.ofFormula_relaid` — **layout and the case of words mean nothing to tokens.**
-/

namespace PathFormula

/-- The formula was cut into stretches, one for each piece that is read of it, and only
space is left behind them. -/
structure IsSplit (s : String) (segs : List Segment) (trail : String) : Prop where
  text_eq : s = Segment.join segs ++ trail
  trail_blank : isBlank trail
  holds : List.Forall₂ Segment.Holds segs (Reading.ofText s).pieces

/-- The stretch is the other one, up to the case of its letters if it is a bare word. -/
def Segment.Respells (new old : Segment) : Prop :=
  if isBareWord old.source then new.source.toLower = old.source.toLower
  else new.source = old.source

/-- The space in front is the same, or any space at all as long as there is some. -/
def Segment.Respaces (new old : Segment) : Prop :=
  new.gap = old.gap ∨ isBlank new.gap ∧ new.gap ≠ ""

/-- The stretches were laid out anew: all may be respelled, all but the first respaced,
and any space may stand in front of the first, or none. -/
structure IsRelaid (new old : List Segment) : Prop where
  respells : List.Forall₂ Segment.Respells new old
  respaces : List.Forall₂ Segment.Respaces new.tail old.tail
  gap_blank : ∀ seg ∈ new.head?, isBlank seg.gap

/-- Where a bare word stands directly in front of an opening parenthesis, no space was put
between the two. -/
def KeepsCalls (new old : List Segment) : Prop :=
  ∀ i word paren, old[i]? = some word → old[i + 1]? = some paren → isBareWord word.source →
    paren.gap = "" → paren.source = "(" → ∀ seg ∈ new[i + 1]?, seg.gap = ""

/-- A lexeme in small letters, if it is a word. -/
def Lexeme.lower : Lexeme → Lexeme
  | word bytes call => word (bytes.map Byte.lower) call
  | l => l

instance (seg : Segment) (p : Piece) : Decidable (seg.Holds p) :=
  decidable_of_iff (Utf8.bytes seg.gap = p.gap ∧ Utf8.bytes seg.source = p.lexeme.bytes ∧
      isBlank seg.gap ∧ seg.source ≠ "" ∧ seg.token = p.lexeme.text)
    ⟨fun ⟨hgap, hsource, hblank, hne, htoken⟩ => ⟨hgap, hsource, hblank, hne, htoken⟩,
      fun h => ⟨h.gap_eq, h.source_eq, h.gap_blank, h.source_ne, h.token_eq⟩⟩

instance (new old : Segment) : Decidable (new.Respells old) :=
  decidable_of_iff (if isBareWord old.source then
      Lexeme.wordText (Utf8.bytes new.source) = Lexeme.wordText (Utf8.bytes old.source)
    else new.source = old.source)
    (by rw [Lexeme.wordText_bytes, Lexeme.wordText_bytes]; rfl)

instance (new old : Segment) : Decidable (new.Respaces old) :=
  inferInstanceAs (Decidable (new.gap = old.gap ∨ isBlank new.gap ∧ new.gap ≠ ""))

/-! ### Letters in either case -/

/-- The classes of bytes that end a lexeme do not tell the cases apart. -/
theorem Byte.classes_lower (b : UInt8) : isReference (lower b) = isReference b ∧
    isQuote (lower b) = isQuote b ∧ isWord (lower b) = isWord b ∧
    Utf8.isContinuation (lower b) = Utf8.isContinuation b ∧
    (lower b < 0x20 ↔ b < 0x20) ∧ isSpace (lower b) = isSpace b ∧
    (lower b = '('.toUInt8 ↔ b = '('.toUInt8) ∧ (lower b = '['.toUInt8 ↔ b = '['.toUInt8) := by
  by_cases hb : isUpper b
  · revert b
    decide +kernel
  · simp [lower_of_not_isUpper hb]

theorem Byte.lower_lower (b : UInt8) : lower (lower b) = lower b := by
  by_cases hb : isUpper b
  · refine lower_of_not_isUpper fun h => ?_
    have hlower := isLower_lower hb
    simp only [isUpper, isLower, Bool.and_eq_true, decide_eq_true_eq, UInt8.le_iff_toNat_le,
      UInt8.reduceToNat] at h hlower
    omega
  · rw [lower_of_not_isUpper hb, lower_of_not_isUpper hb]

/-- No letter belongs to an operator. -/
theorem Operator.lower_eq (op : Operator) {b : UInt8}
    (hb : b ∈ op.bytes ∨ Byte.lower b ∈ op.bytes) : Byte.lower b = b := by
  have h : ∀ op ∈ all, op.bytes.all fun b => !(Byte.isUpper b || Byte.isLower b) := by decide
  have hletter {b : UInt8} (hb : b ∈ op.bytes) : (Byte.isUpper b || Byte.isLower b) = false := by
    simpa using List.all_eq_true.mp (h op op.mem_all) b hb
  refine Byte.lower_of_not_isUpper fun hupper => ?_
  rcases hb with hb | hb
  · simpa [hupper] using hletter hb
  · simpa [Byte.isLower_lower hupper] using hletter hb

/-- No operator goes on with a letter. -/
theorem Operator.bytes_eq_append_lower_iff (op : Operator) (bs : List UInt8) (b : UInt8) :
    op.bytes = bs ++ [Byte.lower b] ↔ op.bytes = bs ++ [b] := by
  constructor <;> intro h
  · rw [h, op.lower_eq (.inr (by simp [h]))]
  · rw [h, op.lower_eq (.inl (by simp [h]))]

namespace Literal

/-- The class of a byte as far as numbers tell: either letter may begin an exponent, and the
other letters are like any other byte. -/
def ByteClass.inNumber : ByteClass → ByteClass
  | upperE => lowerE
  | hexLetter | lowerB | lowerF | lowerN | lowerR | lowerT | lowerU => other
  | c => c

theorem ByteClass.inNumber_lower (b : UInt8) :
    (ofByte? .numeric (Byte.lower b)).map inNumber = (ofByte? .numeric b).map inNumber := by
  by_cases hb : Byte.isUpper b
  · revert b
    decide +kernel
  · rw [Byte.lower_of_not_isUpper hb]

/-- Whether a number that stands in the state goes on with bytes of the class. -/
def State.goesOn (s : State) (c : ByteClass) : Bool :=
  match s.move c with
  | .next t => t.isNumeric
  | _ => false

theorem State.goesOn_inNumber (s : State) (c : ByteClass) : s.goesOn c.inNumber = s.goesOn c := by
  revert c
  cases s <;> decide

theorem State.exists_feeds_iff {s : State} {b : UInt8} :
    (∃ t, Feeds s [b] t) ↔
      ((ByteClass.ofByte? .numeric b).map ByteClass.inNumber).any s.goesOn := by
  rw [Option.any_map, Option.any_eq_true]
  simp only [State.goesOn_inNumber]
  constructor
  · rintro ⟨t, h⟩
    cases h with
    | cons hc hmove hnumeric _ => exact ⟨_, hc, by simp [goesOn, hmove, hnumeric]⟩
  · rintro ⟨c, hc, hmove⟩
    unfold goesOn at hmove
    split at hmove
    next t ht => exact ⟨t, .cons hc ht hmove (.nil t)⟩
    next => cases hmove

/-- A number goes on with either letter of an exponent. -/
theorem beginsNumber_append_lower (bs : List UInt8) (b : UInt8) :
    BeginsNumber (bs ++ [Byte.lower b]) ↔ BeginsNumber (bs ++ [b]) := by
  by_cases hbs : BeginsNumber bs
  · obtain ⟨s, hs⟩ := beginsNumber_iff_feeds.mp hbs
    rw [beginsNumber_append_iff hs, beginsNumber_append_iff hs, State.exists_feeds_iff,
      State.exists_feeds_iff, ByteClass.inNumber_lower]
  · have hfront (x : UInt8) : ¬ BeginsNumber (bs ++ [x]) := by
      rintro ⟨more, hmore⟩
      exact hbs ⟨[x] ++ more, by rwa [← List.append_assoc]⟩
    exact iff_of_false (hfront _) (hfront _)

end Literal

namespace Lexeme

/-- The case of the letter that follows means nothing. -/
theorem endsBefore_map_lower (l : Lexeme) (next : Option UInt8) :
    l.EndsBefore (next.map Byte.lower) ↔ l.EndsBefore next := by
  cases next with
  | none => exact Iff.rfl
  | some b =>
    obtain ⟨hreference, hquote, hword, hcontinuation, hcontrol, hspace, hopen, hsquare⟩ :=
      Byte.classes_lower b
    cases l with
    | operator m => simp [EndsBefore, Operator.bytes_eq_append_lower_iff]
    | number bs =>
      simp [EndsBefore, Literal.StopsNumber, Literal.beginsNumber_append_lower, hcontrol, hspace]
    | reference bs => simp [EndsBefore, StopsReference, hreference, hquote, hopen, hsquare]
    | word bs call =>
      have hcall : (some (Byte.lower b) == some '('.toUInt8) = (some b == some '('.toUInt8) := by
        rw [Bool.eq_iff_iff, beq_iff_eq, beq_iff_eq, Option.some_inj, Option.some_inj]
        exact hopen
      simp [EndsBefore, hword, hcall]
    | symbol first more => simp [EndsBefore, hcontinuation]
    | quoted | openParen | closeParen | dot => exact Iff.rfl

@[simp] theorem text_lower (l : Lexeme) : l.lower.text = l.text := by
  cases l with
  | word bs call =>
    have hlower : (bs.map Byte.lower).map Byte.lower = bs.map Byte.lower := by
      simp [Byte.lower_lower]
    exact congrArg Utf8.text hlower
  | _ => rfl

@[simp] theorem endsOperand_lower (l : Lexeme) : l.lower.endsOperand = l.endsOperand := by
  cases l <;> rfl

/-- A word in other letters is a word. -/
theorem isShaped_word_map_lower (bs : List UInt8) (call : Bool) :
    (word (bs.map Byte.lower) call).IsShaped ↔ (word bs call).IsShaped := by
  cases bs with
  | nil => exact Iff.rfl
  | cons b more => simp [IsShaped, Lead.ofByte_lower_iff, (Byte.classes_lower _).2.2.1]

end Lexeme

/-! ### A stretch laid out anew -/

namespace Segment

variable {new old : Segment}

/-- In small letters, the stretches are the same. -/
theorem Respells.map_lower (h : new.Respells old) :
    (Utf8.bytes new.source).map Byte.lower = (Utf8.bytes old.source).map Byte.lower := by
  unfold Respells at h
  split at h
  · rw [← Utf8.bytes_toLower, ← Utf8.bytes_toLower, h]
  · rw [h]

/-- A stretch laid out anew is read with the same text, where it may follow, and where it
ends in front of space or in front of the same byte but for the case.  It is the same lexeme
but for the case, unless it is a word that was called and no longer is. -/
theorem Respells.exists_lexeme {l : Lexeme} {start start' : Bool} {rest rest' : List UInt8}
    (h : new.Respells old) (hold : Utf8.bytes old.source = l.bytes)
    (hl : l.StandsBefore start rest) (hfollow : l.MayFollow start')
    (hnext : EndsWord rest' ∨ rest'.head?.map Byte.lower = rest.head?.map Byte.lower) :
    ∃ l' : Lexeme, l'.bytes = Utf8.bytes new.source ∧ l'.StandsBefore start' rest' ∧
      l'.text = l.text ∧ (l'.lower = l.lower ∨
        isBareWord old.source ∧ rest.head? = some '('.toUInt8 ∧ EndsWord rest') := by
  obtain ⟨hshape, -, hends⟩ := Lexeme.standsBefore_iff.mp hl
  obtain ⟨b, more, hbytes, hb, hread⟩ := hl
  have hword := Lexeme.isBareWord_iff_of_isRead hread hold
  -- in front of the same byte but for the case, what ended still ends
  have hsame (hhead : rest'.head?.map Byte.lower = rest.head?.map Byte.lower) :
      l.EndsBefore rest'.head? := by
    rw [← Lexeme.endsBefore_map_lower, hhead, Lexeme.endsBefore_map_lower]
    exact hends
  by_cases hbare : isBareWord old.source
  · obtain ⟨call, rfl⟩ := hword.mp hbare
    have hshape' (call' : Bool) : (Lexeme.word (Utf8.bytes new.source) call').IsShaped := by
      rw [← Lexeme.isShaped_word_map_lower, h.map_lower, Lexeme.isShaped_word_map_lower]
      exact hshape
    have htext :
        Lexeme.wordText (Utf8.bytes new.source) = Lexeme.wordText (Utf8.bytes old.source) := by
      rw [Lexeme.wordText, h.map_lower, Lexeme.wordText]
    have hlower (call' : Bool) : (Lexeme.word (Utf8.bytes new.source) call').lower =
        (Lexeme.word (Utf8.bytes old.source) call').lower := by
      rw [Lexeme.lower, h.map_lower, Lexeme.lower]
    have hsign (call' : Bool) : (Lexeme.word (Utf8.bytes new.source) call').MayFollow start' := by
      obtain ⟨b', more', hbytes', hlead, -⟩ := hshape' call'
      exact Lexeme.mayFollow_of_cons hbytes' (Lexeme.isSign_eq_false_of_lead (by simp [hlead]))
    rcases hnext with hspace | hhead
    · refine ⟨.word (Utf8.bytes new.source) false, rfl, Lexeme.standsBefore_iff.mpr
        ⟨hshape' false, hsign false, Lexeme.endsBefore_of_endsWord (by simp) hspace⟩, htext, ?_⟩
      cases call with
      | false => exact .inl (hlower false)
      | true => exact .inr ⟨hbare, beq_iff_eq.mp hends.2.symm, hspace⟩
    · exact ⟨.word (Utf8.bytes new.source) call, rfl, Lexeme.standsBefore_iff.mpr
        ⟨hshape' call, hsign call, hsame hhead⟩, htext, .inl (hlower call)⟩
  · have hsource : new.source = old.source := by
      rwa [Respells, if_neg hbare] at h
    refine ⟨l, by rw [hsource, hold], Lexeme.standsBefore_iff.mpr ⟨hshape, hfollow, ?_⟩, rfl,
      .inl rfl⟩
    rcases hnext with hspace | hhead
    · refine Lexeme.endsBefore_of_endsWord ?_ hspace
      rintro bs rfl
      exact hbare (hword.mpr ⟨true, by rw [hold, Lexeme.bytes]⟩)
    · exact hsame hhead

end Segment

/-! ### All stretches -/

/-- The bytes of a blank text are a gap. -/
theorem isGap_bytes {s : String} (hs : isBlank s) : Byte.IsGap (Utf8.bytes s) := by
  have hspace : [' ', '\t', '\n', '\r'].all fun c =>
      (String.utf8EncodeChar c).all Byte.isSpace := by decide
  intro b hb
  obtain ⟨c, hc, hb⟩ := List.mem_flatMap.mp hb
  have hc := List.all_eq_true.mp hspace c (by simpa using List.all_eq_true.mp hs c hc)
  exact List.all_eq_true.mp hc b hb

theorem endsWord_of_isGap {gap : List UInt8} (hgap : Byte.IsGap gap) : EndsWord gap :=
  fun b hb => hgap b (List.mem_of_mem_head? hb)

variable {start start' last : Bool} {bytes left : List UInt8} {ps : List Piece}
  {news olds : List Segment} {trail : String}

/-- Where stretches begin there is now space, or what was there but for the case of a
letter. -/
theorem endsWord_or_head?_eq (hreads : Reads start bytes ps last left)
    (hholds : List.Forall₂ Segment.Holds olds ps)
    (hrespells : List.Forall₂ Segment.Respells news olds)
    (hrespaces : List.Forall₂ Segment.Respaces news olds) (htrail : isBlank trail) :
    EndsWord (Utf8.bytes (Segment.join news ++ trail)) ∨
      (Utf8.bytes (Segment.join news ++ trail)).head?.map Byte.lower =
        bytes.head?.map Byte.lower := by
  cases hrespells with
  | nil => exact .inl (endsWord_of_isGap (isGap_bytes (by simpa using htrail)))
  | @cons new old news olds hnew _ =>
    cases hholds with
    | @cons _ p _ ps hold _ =>
    obtain ⟨rest, rfl, -, ⟨b, more, hbytes, -⟩, -⟩ := Reads.cons_iff.mp hreads
    rw [Segment.bytes_join_cons]
    rcases (List.forall₂_cons.mp hrespaces).1 with hgap | ⟨hblank, hne⟩
    · refine .inr ?_
      have hsource := hnew.map_lower
      rw [hgap, hold.gap_eq]
      rw [hold.source_eq, hbytes] at hsource
      -- with no space between, the first bytes of the two stretches stand there
      cases p.gap with
      | cons => rfl
      | nil =>
        cases hnews : Utf8.bytes new.source with
        | nil => simp [hnews] at hsource
        | cons b' more' =>
          rw [hnews] at hsource
          rw [hbytes]
          exact congrArg some (List.cons.inj hsource).1
    · refine .inl ?_
      have hgap := isGap_bytes hblank
      cases hbs : Utf8.bytes new.gap with
      | nil => exact absurd (Utf8.bytes_injective (hbs.trans rfl)) hne
      | cons b' more' =>
        rw [hbs] at hgap
        exact endsWord_cons (hgap b' List.mem_cons_self) _

/-- Stretches behind others are laid out anew as those in front are. -/
theorem isRelaid_of_respaces (hholds : List.Forall₂ Segment.Holds olds ps)
    (hrespells : List.Forall₂ Segment.Respells news olds)
    (hrespaces : List.Forall₂ Segment.Respaces news olds) : IsRelaid news olds := by
  cases hrespaces with
  | nil => exact ⟨.nil, .nil, by simp⟩
  | @cons new old news olds hgap hgaps =>
    refine ⟨hrespells, hgaps, ?_⟩
    rintro seg ⟨⟩
    cases hholds with
    | cons hold _ =>
    rcases hgap with hgap | ⟨hblank, -⟩
    · rw [hgap]
      exact hold.gap_blank
    · exact hblank

theorem Reads.mayFollow (h : Reads start bytes ps last left) :
    ∀ p ∈ ps.head?, p.lexeme.MayFollow start := by
  rintro p hp
  cases ps with
  | nil => cases hp
  | cons p' ps =>
    cases hp
    obtain ⟨rest, -, -, hl, -⟩ := Reads.cons_iff.mp h
    exact (Lexeme.standsBefore_iff.mp hl).2.1

/-- In front of an opening parenthesis it means nothing whether an operand has ended. -/
theorem mayFollow_of_head?_eq (hreads : Reads start bytes ps last left)
    (hbytes : bytes.head? = some '('.toUInt8) (start' : Bool) :
    ∀ p ∈ ps.head?, p.lexeme.MayFollow start' := by
  rintro p hp b hb hsign
  cases ps with
  | nil => cases hp
  | cons p' ps =>
    cases hp
    rw [← hreads.head?_dropWhile] at hb
    cases bytes with
    | nil => cases hbytes
    | cons b' bytes =>
      cases hbytes
      cases hb
      cases hsign

/-- Calls are kept in what stands behind the first stretch. -/
theorem KeepsCalls.tail {new old : Segment} (h : KeepsCalls (new :: news) (old :: olds)) :
    KeepsCalls news olds :=
  fun i word paren hword hparen => h (i + 1) word paren hword hparen

/-- Where an opening parenthesis is the next byte, it is the next piece. -/
theorem Reads.head?_eq_openParen (h : Reads start bytes ps last left) (hleft : EndsWord left)
    (hopen : bytes.head? = some '('.toUInt8) : ps.head? = some ⟨[], .openParen⟩ := by
  cases h with
  | refl => exact absurd (hleft _ hopen) (by decide)
  | @piece _ _ gap rest after _ b l ps hgap hb hl =>
    cases gap with
    | cons x gap =>
      cases hopen
      exact absurd (hgap _ List.mem_cons_self) (by decide)
    | nil =>
      cases hopen
      have hallows : Lead.openParen.allows l := Lexeme.allows_of_isRead hl
      cases l with
      | openParen => rfl
      | _ => cases hallows

/-- Where calls are kept, an opening parenthesis behind a bare word still stands there. -/
theorem KeepsCalls.not_endsWord {new old : Segment} (h : KeepsCalls (new :: news) (old :: olds))
    (hbare : isBareWord old.source) (hopen : ps.head? = some ⟨[], .openParen⟩)
    (hholds : List.Forall₂ Segment.Holds olds ps)
    (hrespells : List.Forall₂ Segment.Respells news olds) :
    ¬ EndsWord (Utf8.bytes (Segment.join news ++ trail)) := by
  cases hholds with
  | nil => cases hopen
  | @cons paren _ olds _ hold _ =>
    cases hopen
    cases hrespells with
    | @cons paren' _ news _ hnew _ =>
      have hgap : paren.gap = "" := Utf8.bytes_injective hold.gap_eq
      have hsource : paren.source = "(" := Utf8.bytes_injective hold.source_eq
      have hgap' : paren'.gap = "" := h 0 old paren rfl rfl hbare hgap hsource paren' rfl
      have hsource' : paren'.source = "(" := by
        rw [Segment.Respells, hsource, if_neg (by decide)] at hnew
        exact hnew
      rw [Segment.bytes_join_cons, hgap', hsource']
      exact fun hends => absurd (hends '('.toUInt8 rfl) (by decide)

/-- Stretches laid out anew are read with the same texts, and as the same lexemes but for the
case of words if no call is taken apart. -/
theorem exists_reads_relaid (hreads : Reads start bytes ps last left)
    (hholds : List.Forall₂ Segment.Holds olds ps) (h : IsRelaid news olds) (htrail : isBlank trail)
    (hfollow : ∀ p ∈ ps.head?, p.lexeme.MayFollow start') :
    ∃ qs last', Reads start' (Utf8.bytes (Segment.join news ++ trail)) qs last' (Utf8.bytes trail) ∧
      (qs.map Piece.lexeme).map Lexeme.text = (ps.map Piece.lexeme).map Lexeme.text ∧
      (KeepsCalls news olds → EndsWord left →
        (qs.map Piece.lexeme).map Lexeme.lower = (ps.map Piece.lexeme).map Lexeme.lower) := by
  induction ps generalizing start start' bytes news olds with
  | nil =>
    cases hholds
    cases h.respells
    exact ⟨[], start', by simpa using Reads.refl start' (Utf8.bytes trail), rfl, fun _ _ => rfl⟩
  | cons p ps ih =>
    obtain ⟨hrespells, hrespaces, hblank⟩ := h
    cases hholds with
    | @cons old _ olds _ hold hholds =>
    cases hrespells with
    | @cons new _ news _ hnew hrespells =>
    obtain ⟨rest, rfl, hgap, hl, hps⟩ := Reads.cons_iff.mp hreads
    have hnext := endsWord_or_head?_eq hps hholds hrespells hrespaces htrail
    obtain ⟨l', hbytes, hstands, htext, hends⟩ :=
      hnew.exists_lexeme hold.source_eq hl (hfollow p rfl) hnext
    have hfollow' : ∀ p ∈ ps.head?, p.lexeme.MayFollow l'.endsOperand := by
      rcases hends with hends | ⟨-, hopen, -⟩
      · rw [← Lexeme.endsOperand_lower, hends, Lexeme.endsOperand_lower]
        exact hps.mayFollow
      · exact mayFollow_of_head?_eq hps hopen _
    obtain ⟨qs, last', hqs, htexts, hlowers⟩ :=
      ih hps hholds (isRelaid_of_respaces hholds hrespells hrespaces) hfollow'
    refine ⟨⟨Utf8.bytes new.gap, l'⟩ :: qs, last', ?_, by simp [htext, htexts], ?_⟩
    · rw [Segment.bytes_join_cons, ← hbytes]
      exact Reads.cons_iff.mpr ⟨_, rfl, isGap_bytes (hblank new rfl), hstands, hqs⟩
    · intro hcalls hleft
      have hlower : l'.lower = p.lexeme.lower := hends.resolve_right fun ⟨hbare, hopen, hends⟩ =>
        hcalls.not_endsWord hbare (hps.head?_eq_openParen hleft hopen) hholds hrespells hends
      simp [hlower, hlowers hcalls.tail hleft]

/-! ### Tokens laid out anew -/

namespace Segment

/-- The tokens of stretches, with one space between each and the next. -/
def spaced : List Segment → List Segment
  | [] => []
  | seg :: segs => ⟨"", seg.token⟩ :: segs.map fun seg => ⟨" ", seg.token⟩

theorem join_spaced (segs : List Segment) :
    join (spaced segs) = " ".intercalate (segs.map token) := by
  cases segs with
  | nil => rfl
  | cons seg segs =>
    rw [spaced, join_cons, List.map_cons]
    change "" ++ seg.token ++ _ = _
    rw [String.empty_append]
    induction segs generalizing seg with
    | nil => simp
    | cons seg' segs ih =>
      rw [List.map_cons, List.map_cons, String.intercalate_cons_cons, ← ih seg', join_cons]
      simp only [String.append_assoc]

theorem toLower_token (seg : Segment) : (token seg).toLower = seg.source.toLower := by
  apply Utf8.bytes_injective
  rw [Utf8.bytes_toLower, Utf8.bytes_toLower, token]
  split
  · rw [Utf8.bytes_toLower, List.map_map]
    exact List.map_congr_left fun b _ => Byte.lower_lower b
  · rfl

theorem respells_token (seg : Segment) (gap : String) : Respells ⟨gap, seg.token⟩ seg := by
  unfold Respells
  split
  next => exact toLower_token seg
  next hbare => rw [token, if_neg hbare]

theorem isRelaid_spaced (segs : List Segment) : IsRelaid (spaced segs) segs := by
  cases segs with
  | nil => exact ⟨.nil, .nil, by simp [spaced]⟩
  | cons seg segs =>
    have hspace : isBlank " " ∧ " " ≠ "" := by decide
    refine ⟨.cons (respells_token seg "") ?_, ?_, ?_⟩
    · refine List.forall₂_map_left_iff.mpr (List.forall₂_same.mpr ?_)
      exact fun seg _ => respells_token seg " "
    · exact List.forall₂_map_left_iff.mpr (List.forall₂_same.mpr fun seg _ => .inr hspace)
    · rintro _ ⟨⟩
      rfl

end Segment

namespace TokenList

/-- A formula that has tokens is cut into stretches. -/
theorem exists_isSplit {s : String} {ts : TokenList} (h : ofFormula s = .ok ts) :
    ∃ segs trail, IsSplit s segs trail := by
  obtain ⟨gap, hending, -⟩ := ofFormula_eq_ok_iff.mp h
  obtain ⟨hgap, last, hreads⟩ := Reading.exists_reads_of_ending hending
  obtain ⟨segs, trail, hs, htrail, hholds⟩ := exists_segments_of_reads hreads rfl
  obtain ⟨hblank, hbytes⟩ := exists_blank_of_isGap hgap
  rw [← Utf8.bytes_injective (htrail.trans hbytes.symm)] at hblank
  exact ⟨segs, trail, hs, hblank, hholds⟩

/-- The stretches of a formula have the same tokens when they are laid out anew. -/
theorem ofFormula_of_isRelaid {s : String} {ts : TokenList} (h : ofFormula s = .ok ts)
    (hholds : List.Forall₂ Segment.Holds olds (Reading.ofText s).pieces)
    (hrelaid : IsRelaid news olds) (htrail : isBlank trail) :
    ofFormula (Segment.join news ++ trail) = .ok ts := by
  obtain ⟨gap, -, rfl⟩ := ofFormula_eq_ok_iff.mp h
  obtain ⟨last, left, hreads, -⟩ := Reading.exists_reads_ofText s
  obtain ⟨qs, last', hqs, htexts, -⟩ :=
    exists_reads_relaid hreads hholds hrelaid htrail hreads.mayFollow
  have hreading : Reading.ofText (Segment.join news ++ trail) = ⟨qs, .ok (Utf8.bytes trail)⟩ :=
    Reading.ofBytes_eq_iff.mpr ⟨last', _, hqs, .space (isGap_bytes htrail)⟩
  refine ofFormula_eq_ok_iff.mpr ⟨Utf8.bytes trail, by rw [hreading], ?_⟩
  rw [hreading]
  exact congrArg TokenList.mk htexts.symm

/-- **Layout and the case of words mean nothing to tokens.**

A formula that has tokens is cut into stretches in one way.  However they are laid out
anew, with other space at both ends, with space between any two of them and with the
bare words among them in other letters, the text has the same tokens.  So has the text
of the tokens with one space between each and the next. -/
theorem ofFormula_relaid {s : String} {ts : TokenList} (h : ofFormula s = .ok ts) :
    (∃ segs trail, IsSplit s segs trail) ∧
      (∀ segs trail news trail', IsSplit s segs trail → IsRelaid news segs → isBlank trail' →
        ofFormula (Segment.join news ++ trail') = .ok ts) ∧
      ofFormula ts.joined = .ok ts := by
  obtain ⟨segs, trail, hsplit⟩ := exists_isSplit h
  refine ⟨⟨segs, trail, hsplit⟩, ?_, ?_⟩
  · intro segs trail news trail' hsplit hrelaid htrail
    exact ofFormula_of_isRelaid h hsplit.holds hrelaid htrail
  · have hjoined := ofFormula_of_isRelaid h hsplit.holds (Segment.isRelaid_spaced segs)
      (rfl : isBlank "")
    obtain ⟨gap, -, rfl⟩ := ofFormula_eq_ok_iff.mp h
    rwa [String.append_empty, Segment.join_spaced, ← map_token_eq hsplit.holds] at hjoined

/-- A call that is written without space, and what it is with one space everywhere. -/
theorem ofFormula_relaid_call :
    ofFormula "Sin(x)!-1" = .ok ⟨["sin", "(", "x", ")", "!", "-", "1"]⟩ ∧
      ofFormula (joined ⟨["sin", "(", "x", ")", "!", "-", "1"]⟩) =
        .ok ⟨["sin", "(", "x", ")", "!", "-", "1"]⟩ := by
  have h : ofFormula "Sin(x)!-1" = .ok ⟨["sin", "(", "x", ")", "!", "-", "1"]⟩ := by decide +kernel
  exact ⟨h, (ofFormula_relaid h).2.2⟩

end TokenList

end PathFormula
