import PathFormula.Lexeme.Scanner
import PathFormula.TokenList

/-!
# The tokens of a formula

A lexer goes over the formula once.  It knows whether an operand has just ended, and
so whether a sign is an operator, and takes one token after the other until the input
is exhausted or a token is at fault.

## Main definitions

* `Lexer` — a cursor, and whether an operand has just ended.
* `Lexer.token` — the token that begins with a given byte at the cursor.
* `Lexer.next?`, `Lexer.tokensFrom` — the next token, and all that follow.
* `TokenList.ofFormula` — the tokens of a formula, or its first fault.
-/

namespace PathFormula

/-- A lexer on its way through a formula. -/
structure Lexer where
  /-- Where it stands. -/
  cursor : Cursor
  /-- Whether an operand has just ended. -/
  afterOperand : Bool
  deriving DecidableEq, Repr

namespace Lexer

/-- The lexer in front of all of `bytes`. -/
def start (bytes : List UInt8) : Lexer := ⟨.ofBytes bytes, false⟩

/-- The token that a recogniser has passed over from the cursor on.  An operand ends
with it. -/
def passed {α : Type} (c : Cursor) : Cursor.Outcome α → Except Fault (String × Lexer)
  | .ok _ after => .ok (after.textFrom c.position, ⟨after, true⟩)
  | .error fault _ => .error fault

/-- The number that begins with the byte `b` at the cursor.  If there is none, a point
is a token by itself, and the lexer goes back behind it. -/
def number (b : UInt8) (c : Cursor) : Except Fault (String × Lexer) :=
  match c.readNumber none with
  | .ok _ after => .ok (after.textFrom c.position, ⟨after, true⟩)
  | .error fault _ => if b == '.'.toUInt8 then .ok (".", ⟨c.forward 1, true⟩) else .error fault

/-- The bare word at the cursor, or if there is none the character there.  A called word
has its operand still to come, and of the other characters only a closing bracket or
brace ends one. -/
def wordOrSymbol (b : UInt8) (c : Cursor) : String × Lexer :=
  let (word, after) := c.readWord
  if word.text = "" then
    (c.readSymbol.1, ⟨c.readSymbol.2, b == ']'.toUInt8 || b == '}'.toUInt8⟩)
  else (word.text, ⟨after, !word.call⟩)

/-- The token that begins with the byte `b` at the cursor, and the lexer behind it. -/
def token (l : Lexer) (b : UInt8) : Except Fault (String × Lexer) :=
  let c := l.cursor
  if Byte.isOperator b && (l.afterOperand || !Byte.isSign b) then
    let (mark, after) := c.readMark b
    .ok (mark.symbol, ⟨after, mark.isPostfix⟩)
  else if Byte.isSign b || Byte.isDigit b || b == '.'.toUInt8 then number b c
  else if Byte.isQuote b then passed c (c.readString b none)
  else if b == '$'.toUInt8 || b == '@'.toUInt8 then passed c c.readReference
  else if b == '('.toUInt8 then .ok (c.readSymbol.1, ⟨c.readSymbol.2, false⟩)
  else if b == ')'.toUInt8 then .ok (c.readSymbol.1, ⟨c.readSymbol.2, true⟩)
  else .ok (wordOrSymbol b c)

/-- The next token with the lexer behind it, or nothing if only space is left. -/
def next? (l : Lexer) : Except Fault (Option (String × Lexer)) :=
  let c := l.cursor.skipSpace
  match c.current with
  | none => .ok none
  | some b => (token { l with cursor := c } b).map some

/-! ### A token takes at least one byte -/

variable {l after : Lexer} {b : UInt8} {c : Cursor} {text : String}

theorem length_rest_passed {α : Type} {outcome : Cursor.Outcome α}
    (hlt : ∀ a c', outcome = .ok a c' → c'.rest.length < c.rest.length)
    (h : passed c outcome = .ok (text, after)) : after.cursor.rest.length < c.rest.length := by
  cases outcome with
  | ok a c' =>
    have hc := hlt a c' rfl
    cases h
    exact hc
  | error fault c' => cases h

theorem length_rest_number (hc : c.current = some b) (h : number b c = .ok (text, after)) :
    after.cursor.rest.length < c.rest.length := by
  unfold number at h
  split at h
  next last c' hnumber =>
    cases h
    exact Cursor.length_rest_readNumber hnumber
  next =>
    split at h
    · cases h
      have hpos := Cursor.length_rest_pos hc
      rw [Cursor.length_rest_forward]
      omega
    · cases h

theorem length_rest_wordOrSymbol (hc : c.current = some b) :
    (wordOrSymbol b c).2.cursor.rest.length < c.rest.length := by
  unfold wordOrSymbol
  split
  next word c' hread =>
  split
  · exact Cursor.length_rest_readSymbol hc
  next hword =>
    have hlt : c.readWord.2.rest.length < c.rest.length :=
      Cursor.length_rest_readWord (by rwa [hread])
    rwa [hread] at hlt

/-- A token takes at least one byte. -/
theorem length_rest_token (hc : l.cursor.current = some b) (h : l.token b = .ok (text, after)) :
    after.cursor.rest.length < l.cursor.rest.length := by
  unfold token at h
  dsimp only at h
  split at h
  · cases h
    exact Cursor.length_rest_readMark hc
  split at h
  · exact length_rest_number hc h
  split at h
  · exact length_rest_passed (fun _ _ => Cursor.length_rest_readString) h
  split at h
  · exact length_rest_passed (fun _ _ => Cursor.length_rest_readReference) h
  split at h
  · cases h
    exact Cursor.length_rest_readSymbol hc
  split at h
  · cases h
    exact Cursor.length_rest_readSymbol hc
  · have hlt := length_rest_wordOrSymbol hc
    rw [Except.ok.inj h] at hlt
    exact hlt

theorem length_rest_next? (h : l.next? = .ok (some (text, after))) :
    after.cursor.rest.length < l.cursor.rest.length := by
  have hskip := Cursor.length_rest_passWhile_le Byte.isSpace l.cursor
  unfold next? at h
  dsimp only at h
  split at h
  · cases h
  next b hb =>
    cases htoken : token { l with cursor := l.cursor.skipSpace } b with
    | error fault =>
      rw [htoken] at h
      cases h
    | ok answer =>
      rw [htoken] at h
      cases h
      exact Nat.lt_of_lt_of_le (length_rest_token hb htoken) hskip

/-! ### All tokens -/

/-- The tokens from here on, behind those already taken, which stand in reverse. -/
def tokensFrom (taken : List String) (l : Lexer) : Except Fault TokenList :=
  match _h : l.next? with
  | .error fault => .error fault
  | .ok none => .ok ⟨taken.reverse⟩
  | .ok (some (text, after)) => tokensFrom (text :: taken) after
termination_by l.cursor.rest.length
decreasing_by exact length_rest_next? _h

end Lexer

/-- The tokens of a formula.  Words are in lower case and are not looked up in any
vocabulary. -/
def TokenList.ofFormula (s : String) : Except Fault TokenList :=
  Lexer.tokensFrom [] (.start (Utf8.bytes s))

end PathFormula
