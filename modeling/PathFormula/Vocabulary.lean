/-!
# Vocabularies

Which bare words a formula may use, and as what.  A vocabulary only says which
names there are; what they mean is for the evaluator that owns it.

## Main definitions

* `Vocabulary` — the names of functions and of constants, as predicates.
* `Vocabulary.ofLists` — the vocabulary of two lists.
* `Vocabulary.standard` — the vocabulary of the standard evaluator.
-/

namespace PathFormula

/-- The names a formula may use.  They are looked up in lower case. -/
structure Vocabulary where
  /-- Whether a name can be called. -/
  isFunction : String → Bool
  /-- Whether a name stands for a value. -/
  isConstant : String → Bool

namespace Vocabulary

/-- The vocabulary whose functions and constants are the members of two lists. -/
def ofLists (functions constants : List String) : Vocabulary where
  isFunction := functions.contains
  isConstant := constants.contains

/-- The functions of the standard evaluator. -/
def standardFunctions : List String :=
  ["abs", "acos", "acosh", "asin", "asinh", "atan", "atanh", "avg", "b64decode", "b64encode",
    "b64encoden", "cbrt", "ceil", "cos", "cosh", "erf", "erfc", "erfcinv", "erfinv", "exp", "exp2",
    "expm1", "factorial", "floor", "gamma", "j0", "j1", "key", "length", "log", "log10", "log1p",
    "log2", "logb", "not", "pow10", "rand", "randint", "round", "roundtoeven", "sin", "sinh",
    "size", "sqrt", "sum", "tan", "tanh", "trunc", "y0", "y1"]

/-- The constants of the standard evaluator. -/
def standardConstants : List String :=
  ["e", "pi", "phi", "sqrt2", "sqrte", "sqrtpi", "sqrtphi", "ln2", "log2e", "ln10", "log10e",
    "true", "false", "null"]

/-- The vocabulary of the standard evaluator. -/
def standard : Vocabulary := ofLists standardFunctions standardConstants

end Vocabulary

end PathFormula
