import Mathlib.Data.List.Forall2
import PathFormula.Proofs.Drivers

/-!
# Tokens lose nothing

A formula that has tokens is its tokens with space between them.  Every stretch
of the formula that is no space became one token, in order, and the token is that
stretch; only a bare word has its letters made small.

## Main definitions

* `isBlank`, `isBareWord` — texts of nothing but space, and bare words.
* `Segment` — a stretch of a formula that became a token, with the space in front.
* `Segment.token` — the token a stretch becomes.
* `Segment.Holds` — that a piece was read from a stretch.

## Main results

* `exists_segments_of_reads` — what is read of a text is cut from it in stretches.
* `exists_segments_of_ofFormula` — **the tokens of a formula lose nothing of it.**
-/

namespace PathFormula

/-- Whether a text holds nothing but space, tabs, line feeds and carriage returns. -/
def isBlank (s : String) : Bool := s.toList.all [' ', '\t', '\n', '\r'].contains

/-- Whether a text is a bare word: letters, digits and underscores, the first of
them no digit. -/
def isBareWord (s : String) : Bool :=
  match s.toList with
  | [] => false
  | c :: cs => (c.isAlpha || c == '_') && cs.all fun c => c.isAlphanum || c == '_'

/-- A stretch of a formula that became a token, with the space in front of it. -/
structure Segment where
  /-- The space. -/
  gap : String
  /-- The stretch. -/
  source : String
  deriving DecidableEq, Repr

namespace Segment

/-- The token a stretch becomes: a bare word in small letters, and anything else
as it stands. -/
def token (seg : Segment) : String :=
  if isBareWord seg.source then seg.source.toLower else seg.source

/-- The text of stretches in a row. -/
def join (segs : List Segment) : String := String.join (segs.map fun seg => seg.gap ++ seg.source)

@[simp] theorem join_nil : join [] = "" := rfl

@[simp] theorem join_cons (seg : Segment) (segs : List Segment) :
    join (seg :: segs) = seg.gap ++ seg.source ++ join segs := by
  simp [join]

/-- The piece `p` was read from the stretch. -/
structure Holds (seg : Segment) (p : Piece) : Prop where
  gap_eq : Utf8.bytes seg.gap = p.gap
  source_eq : Utf8.bytes seg.source = p.lexeme.bytes
  gap_blank : isBlank seg.gap
  source_ne : seg.source ≠ ""
  token_eq : seg.token = p.lexeme.text

end Segment

/-! ### Words -/

namespace Byte

variable {b : UInt8}

theorem ofUInt8_beq {c : Char} (hc : Char.ofUInt8 c.toUInt8 = c) :
    (Char.ofUInt8 b == c) = (b == c.toUInt8) := by
  rw [Bool.eq_iff_iff, beq_iff_eq, beq_iff_eq]
  exact ⟨eq_of_ofUInt8, fun h => h ▸ hc⟩

/-- Neither a letter nor the underscore is a digit. -/
theorem isDigit_eq_false (h : isUpper b || isLower b || b == '_'.toUInt8) : isDigit b = false := by
  simp only [isUpper, isLower, Bool.or_eq_true, Bool.and_eq_true, decide_eq_true_eq,
    beq_iff_eq, UInt8.le_iff_toNat_le, UInt8.reduceToNat] at h
  rcases h with h | rfl
  · simp only [isDigit, Bool.and_eq_false_iff, decide_eq_false_iff_not, UInt8.le_iff_toNat_le,
      UInt8.reduceToNat]
    omega
  · rfl

theorem isDigit_ofUInt8 (b : UInt8) : (Char.ofUInt8 b).isDigit = isDigit b := by
  change ('0'.val ≤ b.toUInt32 && b.toUInt32 ≤ '9'.val) = _
  simp [isDigit, UInt32.le_iff_toNat_le, UInt8.le_iff_toNat_le]

theorem isAlpha_ofUInt8 (b : UInt8) : (Char.ofUInt8 b).isAlpha = (isUpper b || isLower b) := by
  change (decide ('A'.val ≤ b.toUInt32 ∧ b.toUInt32 ≤ 'Z'.val) ||
    ('a'.val ≤ b.toUInt32 && b.toUInt32 ≤ 'z'.val)) = _
  simp [isUpper, isLower, UInt32.le_iff_toNat_le, UInt8.le_iff_toNat_le]

theorem isLower_lower (hb : isUpper b) : isLower (lower b) := by
  rw [lower, if_pos hb]
  simp only [isUpper, isLower, Bool.and_eq_true, decide_eq_true_eq, UInt8.le_iff_toNat_le,
    UInt8.reduceToNat, UInt8.toNat_add] at hb ⊢
  omega

theorem isWord_iff : isWord b ↔
    b < 0x80 ∧ ((Char.ofUInt8 b).isAlphanum || Char.ofUInt8 b == '_') := by
  rw [Char.isAlphanum, isAlpha_ofUInt8, isDigit_ofUInt8, ofUInt8_beq rfl]
  have hword : isWord b = (isUpper b || isLower b || isDigit b || b == '_'.toUInt8) := by
    rw [isWord, isAlphanumeric, Bool.or_assoc (isDigit b), Bool.or_comm (isDigit b)]
  rw [← hword]
  exact ⟨fun h => ⟨lt_of_isWord h, h⟩, And.right⟩

end Byte

/-- A word begins with a letter or the underscore. -/
theorem Lead.describes_word (b : UInt8) :
    Lead.word.describes b = (Byte.isUpper b || Byte.isLower b || b == '_'.toUInt8) := by
  rw [Bool.eq_iff_iff]
  constructor
  · simp only [describes, Byte.isWord, Byte.isAlphanumeric]
    grind
  · intro h
    simp only [describes, Byte.isDigit_eq_false h, Byte.isWord, Byte.isAlphanumeric, Bool.false_or]
    simpa using h

theorem Lead.ofByte_eq_word_iff {b : UInt8} : Lead.ofByte b = .word ↔
    b < 0x80 ∧ ((Char.ofUInt8 b).isAlpha || Char.ofUInt8 b == '_') := by
  rw [Lead.ofByte_eq_iff, Byte.isAlpha_ofUInt8, Byte.ofUInt8_beq rfl, ← Lead.describes_word]
  refine ⟨fun h => ⟨Byte.lt_of_isWord ?_, h⟩, And.right⟩
  exact (Bool.and_eq_true_iff.mp h).1

/-- Small letters announce a word as the others do. -/
theorem Lead.ofByte_lower_iff {b : UInt8} :
    Lead.ofByte (Byte.lower b) = .word ↔ Lead.ofByte b = .word := by
  by_cases hb : Byte.isUpper b
  · simp [Lead.ofByte_eq_iff, Lead.describes_word, hb, Byte.isLower_lower hb]
  · rw [Byte.lower_of_not_isUpper hb]

theorem toNat_lt_of_isAlphanum {c : Char} (h : c.isAlphanum) : c.toNat < 0x80 := by
  rcases Bool.or_eq_true_iff.mp h with h | h
  · change (decide ('A'.val ≤ c.val ∧ c.val ≤ 'Z'.val) ||
      ('a'.val ≤ c.val && c.val ≤ 'z'.val)) = true at h
    simp only [Bool.or_eq_true, Bool.and_eq_true, decide_eq_true_eq, UInt32.le_iff_toNat_le] at h
    simp at h
    omega
  · rw [Char.isDigit, Bool.and_eq_true, decide_eq_true_eq, decide_eq_true_eq] at h
    have hle : c.toNat ≤ '9'.toNat := UInt32.le_iff_toNat_le.mp h.2
    exact Nat.lt_of_le_of_lt hle (by decide)

/-- The characters of words are word bytes. -/
theorem exists_isWord_of_wordChar {c : Char} (hc : c.isAlphanum || c == '_') :
    ∃ b, Byte.isWord b ∧ b < 0x80 ∧ c = Char.ofUInt8 b := by
  have hlt : c.toNat < 0x80 := by
    rcases Bool.or_eq_true_iff.mp hc with h | h
    · exact toNat_lt_of_isAlphanum h
    · rw [beq_iff_eq] at h
      rw [h]
      decide
  obtain ⟨b, hb, rfl⟩ := Utf8.exists_ofUInt8_eq hlt
  exact ⟨b, Byte.isWord_iff.mpr ⟨hb, hc⟩, hb, rfl⟩

/-- A bare word begins with the first byte of a word and goes on with word bytes. -/
theorem exists_bytes_of_isBareWord {s : String} (h : isBareWord s) :
    ∃ b more, Utf8.bytes s = b :: more ∧ Lead.ofByte b = .word ∧ ∀ x ∈ more, Byte.isWord x := by
  unfold isBareWord at h
  split at h
  · cases h
  next c cs hs =>
    rw [Bool.and_eq_true, List.all_eq_true] at h
    obtain ⟨b, -, hb, rfl⟩ := exists_isWord_of_wordChar (c := c) <| by
      rcases Bool.or_eq_true_iff.mp h.1 with h | h <;> simp [Char.isAlphanum, h]
    refine ⟨b, Utf8.encode cs, ?_, Lead.ofByte_eq_word_iff.mpr ⟨hb, h.1⟩, ?_⟩
    · rw [Utf8.bytes, hs, Utf8.encode_ofUInt8_cons hb]
    · intro x hx
      obtain ⟨c, hc, hx⟩ := List.mem_flatMap.mp hx
      obtain ⟨y, hword, hy, rfl⟩ := exists_isWord_of_wordChar (h.2 c hc)
      rw [Utf8.utf8EncodeChar_ofUInt8 hy, List.mem_singleton] at hx
      rwa [hx]

namespace Lexeme

/-- The bytes of a word are all word bytes. -/
theorem isWord_of_isRead {afterOperand call : Bool} {b : UInt8} {rest after bs : List UInt8}
    (h : IsRead afterOperand b rest (.word bs call) after) : ∀ x ∈ bs, Byte.isWord x := by
  cases h with
  | word hb =>
    intro x hx
    rcases List.mem_cons.mp hx with rfl | hx
    · exact Lead.isWord hb
    · exact List.mem_takeWhile_imp hx

/-- A word is read exactly where its first byte announces one. -/
theorem lead_eq_word_iff_of_isRead {afterOperand : Bool} {b : UInt8} {rest after : List UInt8}
    {l : Lexeme} (h : IsRead afterOperand b rest l after) :
    Lead.ofByte b = .word ↔ ∃ bs call, l = .word bs call := by
  have hallows := allows_of_isRead h
  constructor
  · intro hb
    rw [hb] at hallows
    cases l with
    | word bs call => exact ⟨bs, call, rfl⟩
    | _ => cases hallows
  · rintro ⟨bs, call, rfl⟩
    cases hb : Lead.ofByte b with
    | word => rfl
    | _ =>
      rw [hb] at hallows
      cases hallows

theorem bytes_wordText (s : String) :
    Utf8.bytes (wordText (Utf8.bytes s)) = (Utf8.bytes s).map Byte.lower := by
  rw [wordText_bytes, Utf8.bytes_toLower]

/-- The stretch a word was read from is a bare word. -/
theorem isBareWord_of_word {afterOperand call : Bool} {b : UInt8} {rest after : List UInt8}
    {s : String} (h : IsRead afterOperand b rest (.word (Utf8.bytes s) call) after) :
    isBareWord s := by
  have hword := isWord_of_isRead h
  have hascii : ∀ x ∈ Utf8.bytes s, x < 0x80 := fun x hx => Byte.lt_of_isWord (hword x hx)
  obtain ⟨more, hmore⟩ := bytes_eq_cons_of_isRead h
  rw [bytes] at hmore
  have hs : s.toList = (b :: more).map Char.ofUInt8 := by
    rw [← hmore, ← Utf8.decode_ascii hascii, Utf8.bytes, Utf8.decode_encode]
  have hb := (lead_eq_word_iff_of_isRead h).mpr ⟨_, _, rfl⟩
  rw [hmore] at hword
  rw [isBareWord, hs]
  simp only [List.map_cons, Bool.and_eq_true, List.all_eq_true]
  refine ⟨(Lead.ofByte_eq_word_iff.mp hb).2, ?_⟩
  rintro c hc
  obtain ⟨x, hx, rfl⟩ := List.mem_map.mp hc
  exact (Byte.isWord_iff.mp (hword x (List.mem_cons_of_mem b hx))).2

theorem bytes_symbol (m : Mark) : Utf8.bytes m.symbol = m.bytes := by
  rcases m with op | _
  · cases op <;> rfl
  · rfl

/-- Apart from a word, a lexeme's text is what it was written as. -/
theorem text_eq_of_bytes {l : Lexeme} {s : String} (hs : Utf8.bytes s = l.bytes)
    (hl : ∀ bs call, l ≠ .word bs call) : l.text = s := by
  cases l with
  | operator m =>
    apply Utf8.bytes_injective
    rw [hs]
    exact bytes_symbol m
  | number bs | quoted bs | reference bs | symbol first more =>
    rw [text, ← Utf8.text_bytes s, hs]
    rfl
  | openParen | closeParen | dot =>
    apply Utf8.bytes_injective
    rw [hs]
    rfl
  | word bs call => exact absurd rfl (hl bs call)

/-- The stretches of words are the bare words. -/
theorem isBareWord_iff_of_isRead {afterOperand : Bool} {b : UInt8} {rest after : List UInt8}
    {l : Lexeme} {s : String} (h : IsRead afterOperand b rest l after)
    (hs : Utf8.bytes s = l.bytes) : isBareWord s ↔ ∃ call, l = .word (Utf8.bytes s) call := by
  constructor
  · intro hbare
    -- the first byte announces a word
    obtain ⟨b', more', hb', hlead, -⟩ := exists_bytes_of_isBareWord hbare
    obtain ⟨more, hmore⟩ := bytes_eq_cons_of_isRead h
    rw [hs, hmore] at hb'
    rw [← (List.cons.inj hb').1] at hlead
    obtain ⟨bs, call, rfl⟩ := (lead_eq_word_iff_of_isRead h).mp hlead
    exact ⟨call, by rw [hs, bytes]⟩
  · rintro ⟨call, rfl⟩
    exact isBareWord_of_word h

/-- The token of a stretch is the text of the lexeme that was read from it. -/
theorem token_eq_of_isRead {afterOperand : Bool} {b : UInt8} {rest after : List UInt8}
    {l : Lexeme} {seg : Segment} (h : IsRead afterOperand b rest l after)
    (hs : Utf8.bytes seg.source = l.bytes) : seg.token = l.text := by
  have hword := isBareWord_iff_of_isRead h hs
  by_cases hbare : isBareWord seg.source
  · obtain ⟨call, rfl⟩ := hword.mp hbare
    rw [Segment.token, if_pos hbare, text, wordText_bytes]
  · rw [Segment.token, if_neg hbare]
    refine (text_eq_of_bytes hs ?_).symm
    rintro bs call rfl
    exact hbare (hword.mpr ⟨call, by rw [hs, bytes]⟩)

end Lexeme

/-! ### Stretches -/

/-- No stretch is empty, and only space stands in front of one. -/
theorem blank_of_mem {segs : List Segment} {ps : List Piece}
    (h : List.Forall₂ Segment.Holds segs ps) :
    ∀ seg ∈ segs, isBlank seg.gap ∧ seg.source ≠ "" := by
  induction h with
  | nil => simp
  | cons hp _ ih =>
    intro seg hseg
    rcases List.mem_cons.mp hseg with rfl | hseg
    · exact ⟨hp.gap_blank, hp.source_ne⟩
    · exact ih seg hseg

/-- The tokens of stretches are the texts of the lexemes read from them. -/
theorem map_token_eq {segs : List Segment} {ps : List Piece}
    (h : List.Forall₂ Segment.Holds segs ps) :
    (ps.map Piece.lexeme).map Lexeme.text = segs.map Segment.token := by
  induction h with
  | nil => rfl
  | cons hp _ ih => simp only [List.map_cons, ih, hp.token_eq]

/-- Stretches hold the bytes of the lexemes read from them. -/
theorem map_source_eq {segs : List Segment} {ps : List Piece}
    (h : List.Forall₂ Segment.Holds segs ps) :
    (ps.map Piece.lexeme).map Lexeme.bytes = segs.map (fun seg => Utf8.bytes seg.source) := by
  induction h with
  | nil => rfl
  | cons hp _ ih => simp only [List.map_cons, ih, hp.source_eq]

theorem Segment.bytes_join_cons (seg : Segment) (segs : List Segment) (trail : String) :
    Utf8.bytes (join (seg :: segs) ++ trail) =
      Utf8.bytes seg.gap ++ (Utf8.bytes seg.source ++ Utf8.bytes (join segs ++ trail)) := by
  simp [Utf8.bytes_append]

/-- Stretches in a row hold the bytes of the pieces read from them. -/
theorem bytes_join {segs : List Segment} {ps : List Piece}
    (h : List.Forall₂ Segment.Holds segs ps) (trail : String) :
    Utf8.bytes (Segment.join segs ++ trail) = Piece.flatten ps ++ Utf8.bytes trail := by
  induction h with
  | nil => simp
  | cons hp _ ih =>
    rw [Segment.bytes_join_cons, ih, hp.gap_eq, hp.source_eq, Piece.flatten_cons, Piece.bytes]
    simp

/-- Space bytes are the blank characters. -/
theorem Byte.isSpace_iff {b : UInt8} : isSpace b ↔
    b < 0x80 ∧ [' ', '\t', '\n', '\r'].contains (Char.ofUInt8 b) := by
  constructor
  · intro hb
    rcases eq_of_isSpace hb with rfl | rfl | rfl | rfl <;> decide
  · rintro ⟨-, h⟩
    simp only [List.contains_cons, List.contains_nil, Bool.or_false, Bool.or_eq_true,
      beq_iff_eq] at h
    rcases h with h | h | h | h <;>
    · rw [eq_of_ofUInt8 h]
      rfl

/-- A gap is a blank text. -/
theorem exists_blank_of_isGap {gap : List UInt8} (hgap : Byte.IsGap gap) :
    isBlank (String.ofList (gap.map Char.ofUInt8)) ∧
      Utf8.bytes (String.ofList (gap.map Char.ofUInt8)) = gap := by
  constructor
  · rw [isBlank, String.toList_ofList, List.all_map, List.all_eq_true]
    exact fun b hb => (Byte.isSpace_iff.mp (hgap b hb)).2
  · rw [Utf8.bytes_ofList, Utf8.encode_map_ofUInt8]
    exact fun b hb => (Byte.isSpace_iff.mp (hgap b hb)).1

/-- What is read of a text is cut from it in stretches, and a text is left. -/
theorem exists_segments_of_reads {start last : Bool} {bytes left : List UInt8} {ps : List Piece}
    (h : Reads start bytes ps last left) {s : String} (hs : Utf8.bytes s = bytes) :
    ∃ segs trail, s = Segment.join segs ++ trail ∧ Utf8.bytes trail = left ∧
      List.Forall₂ Segment.Holds segs ps := by
  induction h generalizing s with
  | refl => exact ⟨[], s, by simp, hs, .nil⟩
  | @piece afterOperand last gap rest after left b l ps hgap hb hl _ ih =>
    obtain ⟨hblank, hgapBytes⟩ := exists_blank_of_isGap hgap
    -- cut off the space, and then the lexeme
    obtain ⟨back, hback, hrest⟩ := Utf8.exists_encode_of_ascii_append hs.symm
      fun x hx => (Byte.isSpace_iff.mp (hgap x hx)).1
    obtain ⟨front, back, rfl, hfront, hafter⟩ := Lexeme.exists_encode_of_isRead hl hrest
    obtain ⟨segs, trail, hjoin, htrail, hsegs⟩ :=
      ih (s := String.ofList back) (by rw [Utf8.bytes_ofList, hafter])
    have hsource : Utf8.bytes (String.ofList front) = l.bytes := by
      rw [Utf8.bytes_ofList, hfront]
    refine ⟨⟨String.ofList (gap.map Char.ofUInt8), String.ofList front⟩ :: segs, trail, ?_,
      htrail, .cons ⟨hgapBytes, hsource, hblank, ?_, Lexeme.token_eq_of_isRead hl hsource⟩ hsegs⟩
    · rw [Segment.join_cons, String.append_assoc, ← hjoin, ← String.toList_inj, hback]
      simp
    · intro hempty
      change String.ofList front = "" at hempty
      obtain ⟨more, hmore⟩ := Lexeme.bytes_eq_cons_of_isRead hl
      rw [← hsource, hempty] at hmore
      cases hmore

namespace TokenList

/-- **The tokens of a formula lose nothing of it.**

The formula is cut into stretches with space between them, and the tokens are
these stretches in order, bare words in small letters.  No stretch is empty, each
holds the very bytes its lexeme was read from, and reading these bytes as text
replaces none of them. -/
theorem exists_segments_of_ofFormula {s : String} {ts : TokenList} (h : ofFormula s = .ok ts) :
    ∃ (segs : List Segment) (trail : String),
      s = Segment.join segs ++ trail ∧ isBlank trail ∧
      (∀ seg ∈ segs, isBlank seg.gap ∧ seg.source ≠ "") ∧
      ts.tokens = segs.map Segment.token ∧
      (Reading.ofText s).lexemes.map Lexeme.bytes = segs.map (fun seg => Utf8.bytes seg.source) ∧
      (∀ l ∈ (Reading.ofText s).lexemes, Utf8.bytes (Utf8.text l.bytes) = l.bytes) ∧
      ts.size ≤ (Utf8.bytes s).length := by
  obtain ⟨gap, hending, rfl⟩ := ofFormula_eq_ok_iff.mp h
  obtain ⟨last, left, hreads, hstop⟩ := Reading.ofBytes_eq_iff.mp (rfl : Reading.ofText s = _)
  rw [hending] at hstop
  cases hstop with
  | space hgap =>
  obtain ⟨segs, trail, hs, htrail, hholds⟩ := exists_segments_of_reads hreads rfl
  have hblank : isBlank trail := by
    obtain ⟨hblank, hbytes⟩ := exists_blank_of_isGap hgap
    rwa [Utf8.bytes_injective (htrail.trans hbytes.symm)]
  have hsource := map_source_eq hholds
  refine ⟨segs, trail, hs, hblank, blank_of_mem hholds, map_token_eq hholds, hsource, ?_, ?_⟩
  · intro l hl
    have hmem : l.bytes ∈ segs.map (fun seg => Utf8.bytes seg.source) :=
      hsource ▸ List.mem_map_of_mem hl
    obtain ⟨seg, -, hseg⟩ := List.mem_map.mp hmem
    rw [← hseg, Utf8.text_bytes]
  · have hle := hreads.length_le
    have hlen := congrArg List.length hreads.bytes_append
    rw [List.length_append] at hlen
    simp only [size, Reading.lexemes, List.length_map]
    change _ = (Utf8.bytes s).length at hlen
    omega

/-- A formula with a word in capitals, a character beyond ASCII and space at both
ends, cut into its stretches. -/
theorem exists_segments_of_call :
    ofFormula " Sin( 2 )é\n" = .ok ⟨["sin", "(", "2", ")", "é"]⟩ ∧
      ∃ segs trail, " Sin( 2 )é\n" = Segment.join segs ++ trail ∧ isBlank trail ∧
        ["sin", "(", "2", ")", "é"] = segs.map Segment.token := by
  have h : ofFormula " Sin( 2 )é\n" = .ok ⟨["sin", "(", "2", ")", "é"]⟩ := by decide +kernel
  obtain ⟨segs, trail, hs, htrail, -, htokens, -⟩ := exists_segments_of_ofFormula h
  exact ⟨h, segs, trail, hs, htrail, htokens⟩

end TokenList

end PathFormula
