/-!
# Token lists

The flat list of a formula's units, by their texts.

## Main definitions

* `TokenList` — a list of texts.
* `TokenList.contains`, `TokenList.count` — whether and how often a text occurs.
* `TokenList.slice` — the list cut at a separator.
* `TokenList.joined` — all texts in one line.
-/

namespace PathFormula

/-- A list of tokens. -/
structure TokenList where
  /-- The texts of the tokens. -/
  tokens : List String
  deriving DecidableEq, Repr

namespace TokenList

/-- The number of tokens. -/
def size (ts : TokenList) : Nat := ts.tokens.length

/-- Whether there is no token. -/
def isEmpty (ts : TokenList) : Bool := ts.tokens.isEmpty

/-- Whether a text is one of the tokens. -/
def contains (ts : TokenList) (s : String) : Bool := ts.tokens.contains s

/-- How many tokens are equal to a text. -/
def count (ts : TokenList) (s : String) : Nat := ts.tokens.count s

/-- The texts of a list put together. -/
def concat (tokens : List String) : String := String.join tokens

/-- Cuts a list at the separator.  The tokens of the segment being cut stand in
reverse, and so do the segments already cut. -/
def sliceFrom (separator : String) (segment : List String) (segments : List String) :
    List String → List String
  | [] => (concat segment.reverse :: segments).reverse
  | t :: ts =>
    if t = separator then sliceFrom separator [] (concat segment.reverse :: segments) ts
    else sliceFrom separator (t :: segment) segments ts

/-- The segments between tokens equal to the separator, each put together to one
text.  There is one segment more than there are separators. -/
def slice (ts : TokenList) (separator : String) : List String :=
  sliceFrom separator [] [] ts.tokens

/-- The tokens in one line, with a space between each and the next. -/
def joined (ts : TokenList) : String := " ".intercalate ts.tokens

end TokenList

end PathFormula
