/-!
# Byte classes of literals

Numbers and quoted strings are recognised over classes of bytes rather than
single bytes.  The classes depend on the context only in which byte counts as
the quote.

## Main definitions

* `ByteClass` — the classes.
* `Context` — a number, or a string with its delimiter.
* `ByteClass.isHex` — the classes of hexadecimal digits.
* `ByteClass.ofByte?` — the class of a byte in a context.
-/

namespace PathFormula.Literal

/-- What a byte can be to a number or a string. -/
inductive ByteClass where
  /-- The space. -/
  | space
  /-- Tab, line feed and carriage return. -/
  | white
  /-- Comma, closing bracket and closing brace, which may follow a number. -/
  | delimiter
  /-- The quote of the context. -/
  | quote
  /-- The backslash. -/
  | backslash
  /-- The slash. -/
  | slash
  /-- The plus sign. -/
  | plus
  /-- The minus sign. -/
  | minus
  /-- The decimal point. -/
  | point
  /-- The digit zero. -/
  | zero
  /-- A digit from one to nine. -/
  | digit
  /-- The small letter e. -/
  | lowerE
  /-- The capital letter E. -/
  | upperE
  /-- A letter that only counts as a hexadecimal digit: `a c d A B C D F`. -/
  | hexLetter
  /-- The small letter b. -/
  | lowerB
  /-- The small letter f. -/
  | lowerF
  /-- The small letter n. -/
  | lowerN
  /-- The small letter r. -/
  | lowerR
  /-- The small letter t. -/
  | lowerT
  /-- The small letter u. -/
  | lowerU
  /-- Any other byte, and every byte outside ASCII. -/
  | other
  deriving DecidableEq, Repr

/-- What is being recognised. -/
inductive Context where
  /-- A number. -/
  | numeric
  /-- A string between two bytes `delimiter`. -/
  | quoted (delimiter : UInt8)
  deriving DecidableEq, Repr

/-- The byte that counts as the quote: the single quote in a string that it
delimits, and the double quote everywhere else. -/
def Context.quote : Context → UInt8
  | numeric => 0x22
  | quoted delimiter => if delimiter == 0x27 then 0x27 else 0x22

namespace ByteClass

/-- Every class, in the order of the type. -/
def all : List ByteClass :=
  [space, white, delimiter, quote, backslash, slash, plus, minus, point, zero, digit, lowerE,
    upperE, hexLetter, lowerB, lowerF, lowerN, lowerR, lowerT, lowerU, other]

/-- Whether the bytes of a class are hexadecimal digits. -/
def isHex : ByteClass → Bool
  | zero | digit | hexLetter | lowerB | lowerE | upperE | lowerF => true
  | _ => false

theorem mem_all (c : ByteClass) : c ∈ all := by cases c <;> decide

/-- What can be decided of a class can be decided of all of them. -/
instance (p : ByteClass → Prop) [DecidablePred p] : Decidable (∀ c, p c) :=
  decidable_of_decidable_of_iff (p := ∀ c ∈ all, p c)
    ⟨fun h c => h c (mem_all c), fun h c _ => h c⟩

/-- The class of a byte.  A control byte that is not white space has none: it
stands in no literal. -/
def ofByte? (context : Context) (b : UInt8) : Option ByteClass :=
  match Char.ofUInt8 b with
  | ' ' => some space
  | '\t' | '\n' | '\r' => some white
  | ',' | ']' | '}' => some delimiter
  | '\\' => some backslash
  | '/' => some slash
  | '+' => some plus
  | '-' => some minus
  | '.' => some point
  | '0' => some zero
  | '1' | '2' | '3' | '4' | '5' | '6' | '7' | '8' | '9' => some digit
  | 'e' => some lowerE
  | 'E' => some upperE
  | 'a' | 'c' | 'd' | 'A' | 'B' | 'C' | 'D' | 'F' => some hexLetter
  | 'b' => some lowerB
  | 'f' => some lowerF
  | 'n' => some lowerN
  | 'r' => some lowerR
  | 't' => some lowerT
  | 'u' => some lowerU
  | _ => if b < 0x20 then none else if b == context.quote then some quote else some other

end ByteClass

end PathFormula.Literal
