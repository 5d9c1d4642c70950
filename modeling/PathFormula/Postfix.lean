import PathFormula.Operator
import PathFormula.TokenList

/-!
# Formulas in postfix order

In postfix order every operator and function stands behind its operands, so no
parentheses are needed.

## Main definitions

* `Entry` — an operand, an operator or a called function.
* `Postfix` — a sequence of entries.
* `Postfix.toTokens` — the texts of the entries.
-/

namespace PathFormula

/-- A unit of a formula in postfix order. -/
inductive Entry where
  /-- A number, a string, a path reference or a constant, by its text. -/
  | operand (text : String)
  /-- An operator. -/
  | operator (op : Operator)
  /-- A function, by its name. -/
  | function (name : String)
  deriving DecidableEq, Repr

/-- The text of an entry. -/
def Entry.text : Entry → String
  | operand text => text
  | operator op => op.symbol
  | function name => name

/-- A formula in postfix order. -/
structure Postfix where
  /-- The entries, in order. -/
  entries : List Entry
  deriving DecidableEq, Repr

/-- The texts of the entries. -/
def Postfix.toTokens (p : Postfix) : TokenList := ⟨p.entries.map Entry.text⟩

end PathFormula
