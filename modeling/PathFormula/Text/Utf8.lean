/-!
# Reading bytes as UTF-8

Text goes to bytes character by character, and bytes come back to text without
ever failing: where they are not UTF-8, each maximal piece of a sequence that
was begun and not finished is read as one U+FFFD.

## Main definitions

* `Utf8.encode cs` — the bytes of a list of characters.
* `Utf8.bytes s` — the bytes of a string.
* `Utf8.char? bytes` — the character that `bytes` begins with, if any.
* `Utf8.brokenLength b rest` — how many bytes one U+FFFD stands for.
* `Utf8.decode bytes` — the characters of a byte list, broken pieces replaced.
* `Utf8.text bytes` — the same as a string.
-/

namespace PathFormula.Utf8

/-- The bytes of a list of characters. -/
def encode (cs : List Char) : List UInt8 := cs.flatMap String.utf8EncodeChar

/-- The bytes of a string. -/
def bytes (s : String) : List UInt8 := encode s.toList

/-- The character whose encoding `bytes` begins with. -/
def char? (bytes : List UInt8) : Option Char :=
  (bytes.take 4).toByteArray.utf8DecodeChar? 0

/-- Whether `b` can only continue a sequence: its two high bits are `10`. -/
def isContinuation (b : UInt8) : Bool := b &&& 0xC0 == 0x80

/-- Whether the second byte `s` can follow the lead byte `b` of a sequence of
three or four bytes.  Four leads narrow the range, so that no sequence is
overlong, a surrogate or above U+10FFFF. -/
def isSecond (b s : UInt8) : Bool :=
  if b == 0xE0 then 0xA0 ≤ s && s ≤ 0xBF
  else if b == 0xED then 0x80 ≤ s && s ≤ 0x9F
  else if b == 0xF0 then 0x90 ≤ s && s ≤ 0xBF
  else if b == 0xF4 then 0x80 ≤ s && s ≤ 0x8F
  else isContinuation s

/-- The number of bytes of the broken sequence that starts with `b` and goes on
with `rest`: the longest piece that some character begins with, and at least
one byte. -/
def brokenLength (b : UInt8) (rest : List UInt8) : Nat :=
  if 0xE0 ≤ b && b ≤ 0xF4 then
    match rest with
    | s :: more =>
      if isSecond b s then
        match more with
        | t :: _ => if 0xF0 ≤ b && isContinuation t then 3 else 2
        | [] => 2
      else 1
    | [] => 1
  else 1

/-- One reading step: the character at the front, and what is left after it. -/
def next (b : UInt8) (rest : List UInt8) : Char × List UInt8 :=
  match char? (b :: rest) with
  | some c => (c, rest.drop (c.utf8Size - 1))
  | none => ('\ufffd', rest.drop (brokenLength b rest - 1))

/-- A reading step never makes the rest longer. -/
theorem length_next_le (b : UInt8) (rest : List UInt8) :
    (next b rest).2.length ≤ rest.length := by
  unfold next
  split <;> simp

/-- The characters of `bytes`, put in front of those already read, which stand
in reverse. -/
def decodeOnto (done : List Char) : List UInt8 → List Char
  | [] => done.reverse
  | b :: rest => decodeOnto ((next b rest).1 :: done) (next b rest).2
termination_by bytes => bytes.length
decreasing_by exact Nat.lt_succ_of_le (length_next_le b rest)

/-- The characters of a byte list.  Each maximal broken piece gives one U+FFFD. -/
def decode (bytes : List UInt8) : List Char := decodeOnto [] bytes

/-- The text of a byte list. -/
def text (bytes : List UInt8) : String := String.ofList (decode bytes)

@[simp] theorem text_nil : text [] = "" := by simp [text, decode, decodeOnto]

end PathFormula.Utf8
