/-!
# UTF-16 code units

A character above U+FFFF has two units, a high surrogate and a low one.  A
surrogate without its partner stands for no character.

## Main definitions

* `Utf16.isHigh`, `Utf16.isLow` — the two ranges of surrogates.
* `Utf16.join` — the character of a pair.
* `Utf16.single` — the character of a unit by itself.
-/

namespace PathFormula.Utf16

/-- Whether a unit is the first of a pair. -/
def isHigh (u : Nat) : Bool := 0xD800 ≤ u && u ≤ 0xDBFF

/-- Whether a unit is the second of a pair. -/
def isLow (u : Nat) : Bool := 0xDC00 ≤ u && u ≤ 0xDFFF

/-- The character of a pair of surrogates. -/
def join (high low : Nat) : Char :=
  Char.ofNat (0x10000 + (high - 0xD800) * 0x400 + (low - 0xDC00))

/-- The character of a unit that stands by itself.  A lone surrogate is read as
U+FFFD. -/
def single (u : Nat) : Char := if isHigh u || isLow u then '\ufffd' else Char.ofNat u

end PathFormula.Utf16
