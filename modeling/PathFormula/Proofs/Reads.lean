import PathFormula.Proofs.Boundary
import PathFormula.Reading

/-!
# Reading piece by piece

The reading of a formula as a relation: which pieces stand at the front of some
bytes, and what they leave.  Readings are put together and taken apart by it, and
what a reading keeps is shown by induction on it.

## Main definitions

* `Reads afterOperand bytes ps last left` — the pieces `ps` are read from the
  front of `bytes` and leave `left`; `last` says whether an operand has ended.
* `Stops afterOperand offset left ending` — nothing more is read from `left`, and
  the reading ends with `ending`.

## Main results

* `Reads.trans` — readings compose.
* `ofBytes_eq_iff` — the reading of some bytes is the one the relations allow.
* `exists_reads_ofText`, `exists_reads_of_ending` — what the relations say of a text, and of a
  reading without a fault.
* `Reads.bytes_append` — pieces take the bytes they are written with.
-/

namespace PathFormula

/-- A run ends where the test first fails. -/
theorem span_append {α : Type} {p : α → Bool} {front back : List α} (hfront : ∀ a ∈ front, p a)
    (hback : ∀ a ∈ back.head?, p a = false) :
    (front ++ back).takeWhile p = front ∧ (front ++ back).dropWhile p = back := by
  rw [List.takeWhile_append_of_pos hfront, List.dropWhile_append_of_pos hfront]
  cases back with
  | nil => exact ⟨List.append_nil front, rfl⟩
  | cons a back => simp [hback a rfl]

/-- The bytes of pieces in a row. -/
def Piece.flatten (ps : List Piece) : List UInt8 := ps.flatMap Piece.bytes

@[simp] theorem Piece.flatten_nil : Piece.flatten [] = [] := rfl

@[simp] theorem Piece.flatten_cons (p : Piece) (ps : List Piece) :
    Piece.flatten (p :: ps) = p.bytes ++ Piece.flatten ps := rfl

@[simp] theorem Piece.flatten_append (ps qs : List Piece) :
    Piece.flatten (ps ++ qs) = Piece.flatten ps ++ Piece.flatten qs := List.flatMap_append

/-- Some bytes are space, all of them. -/
def Byte.IsGap (gap : List UInt8) : Prop := ∀ b ∈ gap, isSpace b

/-- The pieces `ps` are read from the front of the bytes and leave `left`.  The
two truth values say whether an operand has just ended, before and after. -/
inductive Reads : Bool → List UInt8 → List Piece → Bool → List UInt8 → Prop
  /-- Nothing is read. -/
  | refl (afterOperand : Bool) (bytes : List UInt8) :
    Reads afterOperand bytes [] afterOperand bytes
  /-- A gap and a lexeme are read, and then the others. -/
  | piece {afterOperand last : Bool} {gap rest after left : List UInt8} {b : UInt8} {l : Lexeme}
    {ps : List Piece} (hgap : Byte.IsGap gap) (hb : Byte.isSpace b = false)
    (hl : Lexeme.IsRead afterOperand b rest l after)
    (hps : Reads l.endsOperand after ps last left) :
    Reads afterOperand (gap ++ b :: rest) (⟨gap, l⟩ :: ps) last left

/-- Nothing more is read from the bytes: only space is left, or a lexeme is at
fault. -/
inductive Stops (afterOperand : Bool) (offset : Nat) :
    List UInt8 → Except Fault (List UInt8) → Prop
  /-- Only space is left. -/
  | space {gap : List UInt8} (hgap : Byte.IsGap gap) : Stops afterOperand offset gap (.ok gap)
  /-- A lexeme is at fault. -/
  | fault {gap rest : List UInt8} {b : UInt8} {fault : Fault} (hgap : Byte.IsGap gap)
    (hb : Byte.isSpace b = false) (hl : Lexeme.read afterOperand b rest = .error fault) :
    Stops afterOperand offset (gap ++ b :: rest) (.error (fault.shift (offset + gap.length)))

/-! ### Readings in a row -/

theorem Reads.trans {start middle last : Bool} {bytes between left : List UInt8}
    {ps qs : List Piece} (h : Reads start bytes ps middle between)
    (h' : Reads middle between qs last left) : Reads start bytes (ps ++ qs) last left := by
  induction h with
  | refl => exact h'
  | piece hgap hb hl _ ih => exact .piece hgap hb hl (ih h')

/-- A reading can be taken apart between any two pieces. -/
theorem Reads.split {start last : Bool} {bytes left : List UInt8} {ps qs : List Piece}
    (h : Reads start bytes (ps ++ qs) last left) :
    ∃ middle between, Reads start bytes ps middle between ∧ Reads middle between qs last left := by
  induction ps generalizing start bytes with
  | nil => exact ⟨start, bytes, .refl _ _, h⟩
  | cons p ps ih =>
    cases h with
    | piece hgap hb hl hps =>
      obtain ⟨middle, between, hfront, hback⟩ := ih hps
      exact ⟨middle, between, .piece hgap hb hl hfront, hback⟩

/-- A single piece. -/
theorem Reads.single {afterOperand : Bool} {gap rest after : List UInt8} {b : UInt8} {l : Lexeme}
    (hgap : Byte.IsGap gap) (hb : Byte.isSpace b = false)
    (hl : Lexeme.IsRead afterOperand b rest l after) :
    Reads afterOperand (gap ++ b :: rest) [⟨gap, l⟩] l.endsOperand after :=
  .piece hgap hb hl (.refl _ _)

/-- Pieces take the bytes they are written with. -/
theorem Reads.bytes_append {start last : Bool} {bytes left : List UInt8} {ps : List Piece}
    (h : Reads start bytes ps last left) : Piece.flatten ps ++ left = bytes := by
  induction h with
  | refl => rfl
  | piece hgap hb hl _ ih =>
    rw [Piece.flatten_cons, Piece.bytes, List.append_assoc, List.append_assoc, ih,
      Lexeme.bytes_append_of_isRead hl]

/-- Every lexeme was read somewhere. -/
theorem Reads.exists_isRead {start last : Bool} {bytes left : List UInt8} {ps : List Piece}
    (h : Reads start bytes ps last left) :
    ∀ p ∈ ps, ∃ afterOperand b rest after, Lexeme.IsRead afterOperand b rest p.lexeme after := by
  induction h with
  | refl => simp
  | piece hgap hb hl _ ih =>
    intro p hp
    rcases List.mem_cons.mp hp with rfl | hp
    · exact ⟨_, _, _, _, hl⟩
    · exact ih p hp

/-- A word is called if an open parenthesis is the next byte behind it. -/
theorem Reads.call_eq {start last call : Bool} {bytes left gap bs rest : List UInt8}
    {before after : List Piece}
    (h : Reads start bytes (before ++ ⟨gap, .word bs call⟩ :: after) last left)
    (hrest : bytes = Piece.flatten before ++ gap ++ bs ++ rest) :
    call = (rest.head? == some '('.toUInt8) := by
  have hbytes := h.bytes_append
  obtain ⟨middle, between, -, hword⟩ := h.split
  cases hword with
  | piece hgap hb hl hps =>
    have hafter := hps.bytes_append
    -- what stands behind the word is what the reader saw there
    have hbehind : Piece.flatten after ++ left = rest := by
      rw [hrest, Piece.flatten_append, Piece.flatten_cons, Piece.bytes] at hbytes
      simpa [Lexeme.bytes, List.append_assoc] using hbytes
    rw [← hbehind, hafter]
    cases hl with
    | word hb' => rfl

/-- There are at most as many pieces as bytes. -/
theorem Reads.length_le {start last : Bool} {bytes left : List UInt8} {ps : List Piece}
    (h : Reads start bytes ps last left) : ps.length ≤ (Piece.flatten ps).length := by
  induction h with
  | refl => simp
  | piece hgap hb hl _ ih =>
    obtain ⟨more, hmore⟩ := Lexeme.bytes_eq_cons_of_isRead hl
    rw [Piece.flatten_cons, Piece.bytes, hmore]
    simp only [List.length_cons, List.length_append]
    omega

namespace Reading

/-! ### The reader follows the relations -/

/-- A gap is all the space in front of the next lexeme. -/
theorem span_isSpace {gap rest : List UInt8} {b : UInt8} (hgap : Byte.IsGap gap)
    (hb : Byte.isSpace b = false) :
    (gap ++ b :: rest).takeWhile Byte.isSpace = gap ∧
      (gap ++ b :: rest).dropWhile Byte.isSpace = b :: rest :=
  span_append hgap (by simpa using hb)

/-- A piece in front is read, and then the rest. -/
theorem readFrom_piece {afterOperand : Bool} {gap rest after : List UInt8} {b : UInt8}
    {l : Lexeme} (offset : Nat) (done : List Piece) (hgap : Byte.IsGap gap)
    (hb : Byte.isSpace b = false) (hl : Lexeme.IsRead afterOperand b rest l after) :
    readFrom afterOperand offset done (gap ++ b :: rest) =
      readFrom l.endsOperand (offset + gap.length + l.bytes.length) (⟨gap, l⟩ :: done) after := by
  have hread := Lexeme.read_eq_ok_iff.mpr hl
  rw [readFrom, (span_isSpace hgap hb).1]
  split
  next hdrop => simp [(span_isSpace hgap hb).2] at hdrop
  next b' rest' hdrop =>
    rw [(span_isSpace hgap hb).2] at hdrop
    obtain ⟨rfl, rfl⟩ := List.cons.inj hdrop
    split
    next fault hfault => simp [hread] at hfault
    next l' after' hl' =>
      rw [hread] at hl'
      cases hl'
      rfl

theorem readFrom_of_reads {start last : Bool} {bytes left : List UInt8} {ps : List Piece}
    (h : Reads start bytes ps last left) (offset : Nat) (done : List Piece) :
    readFrom start offset done bytes =
      readFrom last (offset + (Piece.flatten ps).length) (ps.reverse ++ done) left := by
  induction h generalizing offset done with
  | refl => rfl
  | piece hgap hb hl _ ih =>
    rw [readFrom_piece offset done hgap hb hl, ih]
    simp [Piece.bytes, Nat.add_assoc]

/-- Where nothing more is read the reading ends. -/
theorem readFrom_of_stops {afterOperand : Bool} {offset : Nat} {left : List UInt8}
    {ending : Except Fault (List UInt8)} (h : Stops afterOperand offset left ending)
    (done : List Piece) : readFrom afterOperand offset done left = ⟨done.reverse, ending⟩ := by
  cases h with
  | space hgap =>
    have htake : left.takeWhile Byte.isSpace = left := by simpa [Byte.IsGap] using hgap
    have hdrop : left.dropWhile Byte.isSpace = [] := by simpa [Byte.IsGap] using hgap
    rw [readFrom, htake]
    split
    next => rfl
    next b rest hcons => simp [hdrop] at hcons
  | fault hgap hb hl =>
    rw [readFrom, (span_isSpace hgap hb).1]
    split
    next hdrop => simp [(span_isSpace hgap hb).2] at hdrop
    next b' rest' hdrop =>
      rw [(span_isSpace hgap hb).2] at hdrop
      obtain ⟨rfl, rfl⟩ := List.cons.inj hdrop
      split
      next fault' hfault =>
        rw [hl] at hfault
        cases hfault
        rfl
      next l' after' hl' => simp [hl] at hl'

/-- Every reading is a run of pieces up to where nothing more is read. -/
theorem exists_reads_stops (afterOperand : Bool) (offset : Nat) (bytes : List UInt8) :
    ∃ ps last left ending, Reads afterOperand bytes ps last left ∧
      Stops last (offset + (Piece.flatten ps).length) left ending := by
  -- on the number of bytes left, as the reader itself
  induction hn : bytes.length using Nat.strong_induction_on
    generalizing afterOperand offset bytes with
  | _ n ih =>
    have hgap : Byte.IsGap (bytes.takeWhile Byte.isSpace) := fun _ => List.mem_takeWhile_imp
    have hsplit := List.takeWhile_append_dropWhile (p := Byte.isSpace) (l := bytes)
    have hhead := List.head?_dropWhile_not Byte.isSpace bytes
    cases hdrop : bytes.dropWhile Byte.isSpace with
    | nil =>
      rw [hdrop, List.append_nil] at hsplit
      rw [hsplit] at hgap
      exact ⟨[], afterOperand, bytes, .ok bytes, .refl _ _, .space hgap⟩
    | cons b rest =>
      rw [hdrop] at hsplit hhead
      have hb : Byte.isSpace b = false := by simpa using hhead
      rw [← hsplit]
      cases hread : Lexeme.read afterOperand b rest with
      | error fault => exact ⟨[], afterOperand, _, _, .refl _ _, .fault hgap hb hread⟩
      | ok answer =>
        obtain ⟨l, after⟩ := answer
        have hl := Lexeme.read_eq_ok_iff.mp hread
        have hshort : after.length < n := by
          have := Lexeme.length_read_le hread
          have := congrArg List.length hsplit
          simp only [List.length_append, List.length_cons] at this
          omega
        obtain ⟨ps, last, left, ending, hps, hleft⟩ := ih after.length hshort l.endsOperand
          (offset + (Piece.bytes ⟨bytes.takeWhile Byte.isSpace, l⟩).length) after rfl
        refine ⟨_, last, left, ending, .piece hgap hb hl hps, ?_⟩
        rw [Piece.flatten_cons, List.length_append, ← Nat.add_assoc]
        exact hleft

/-- The reading of some bytes is the one the relations allow. -/
theorem ofBytes_eq_iff {bytes : List UInt8} {r : Reading} :
    ofBytes bytes = r ↔ ∃ last left, Reads false bytes r.pieces last left ∧
      Stops last (Piece.flatten r.pieces).length left r.ending := by
  have sound {r : Reading} {last : Bool} {left : List UInt8}
      (h : Reads false bytes r.pieces last left)
      (hstop : Stops last (Piece.flatten r.pieces).length left r.ending) : ofBytes bytes = r := by
    rw [ofBytes, readFrom_of_reads h, readFrom_of_stops (by simpa using hstop)]
    simp
  constructor
  · rintro rfl
    obtain ⟨ps, last, left, ending, h, hstop⟩ := exists_reads_stops false 0 bytes
    rw [Nat.zero_add] at hstop
    rw [sound (r := ⟨ps, ending⟩) h hstop]
    exact ⟨last, left, h, hstop⟩
  · rintro ⟨last, left, h, hstop⟩
    exact sound h hstop

/-- The pieces of a text are read from the front of its bytes, up to where the reading ends. -/
theorem exists_reads_ofText (s : String) : ∃ last left,
    Reads false (Utf8.bytes s) (ofText s).pieces last left ∧
      Stops last (Piece.flatten (ofText s).pieces).length left (ofText s).ending :=
  ofBytes_eq_iff.mp rfl

/-- A reading without a fault leaves nothing but space. -/
theorem exists_reads_of_ending {bytes trail : List UInt8}
    (h : (ofBytes bytes).ending = .ok trail) :
    Byte.IsGap trail ∧ ∃ last, Reads false bytes (ofBytes bytes).pieces last trail := by
  obtain ⟨last, left, hreads, hstop⟩ := ofBytes_eq_iff.mp (rfl : ofBytes bytes = _)
  rw [h] at hstop
  cases hstop with
  | space hgap => exact ⟨hgap, last, hreads⟩

end Reading

end PathFormula
