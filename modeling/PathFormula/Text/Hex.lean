/-!
# Hexadecimal digits

Digits are written in lower case and read in either case.

## Main definitions

* `Hex.digit n` — the digit that stands for `n`.
* `Hex.pair b` — the two digits of a byte.
* `Hex.value? c` — the value a digit stands for, if `c` is one.
* `Hex.four? a b c d` — the number four digits stand for, if all four are digits.
-/

namespace PathFormula.Hex

/-- The lower-case digit for `n`, which is below sixteen; a larger number wraps. -/
def digit (n : Nat) : Char :=
  let n := n % 16
  if n < 10 then Char.ofNat (48 + n) else Char.ofNat (87 + n)

/-- A byte as exactly two digits. -/
def pair (b : UInt8) : List Char := [digit (b.toNat / 16), digit b.toNat]

/-- The value of a digit of either case. -/
def value? (c : Char) : Option Nat :=
  if '0' ≤ c ∧ c ≤ '9' then some (c.toNat - 48)
  else if 'a' ≤ c ∧ c ≤ 'f' then some (c.toNat - 87)
  else if 'A' ≤ c ∧ c ≤ 'F' then some (c.toNat - 55)
  else none

/-- The number written by four digits, the first counting most. -/
def four? (a b c d : Char) : Option Nat :=
  match value? a, value? b, value? c, value? d with
  | some w, some x, some y, some z => some (((w * 16 + x) * 16 + y) * 16 + z)
  | _, _, _, _ => none

end PathFormula.Hex
