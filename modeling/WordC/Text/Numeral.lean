import WordC.Text.Digit

/-!
# Reading numerals

Two readers. A *literal* of the language is a decimal numeral without needless leading zeros, or
`0x` with at least one hexadecimal digit. A *plain numeral* is decimal, may have leading zeros and
may have single underscores between its digits. Decimal text of more than 4300 digits is refused by
both.
-/

namespace WordC.Text

/-- The most digits that decimal text may have. -/
def maxDecimalDigits : Nat := 4300

def digitsValue (base : Nat) (digits : List Nat) : Nat :=
  digits.foldl (fun n d => n * base + d) 0

def hexValue? (c : Char) : Option Nat :=
  if '0' ≤ c ∧ c ≤ '9' then some (c.toNat - 48)
  else if 'a' ≤ c ∧ c ≤ 'f' then some (c.toNat - 87)
  else if 'A' ≤ c ∧ c ≤ 'F' then some (c.toNat - 55)
  else none

def isHexDigit (c : Char) : Bool := (hexValue? c).isSome

def hexNumeral? (cs : List Char) : Option Nat :=
  if cs.isEmpty then none else (cs.mapM hexValue?).map (digitsValue 16)

def decimalNumeral? (cs : List Char) : Option Nat :=
  if cs.isEmpty ∨ maxDecimalDigits < cs.length then none
  else (cs.mapM decimalValue?).map (digitsValue 10)

/-- A decimal literal starts with a zero only if all its digits are zeros. -/
def literalChars? : List Char → Option Nat
  | '0' :: 'x' :: cs => hexNumeral? cs
  | '0' :: 'X' :: cs => hexNumeral? cs
  | cs => (decimalNumeral? cs).filter fun n =>
      n = 0 || cs.head?.bind decimalValue? != some 0

def literal? (s : String) : Option Nat := literalChars? s.toList

/-- Leaves out each underscore that stands between two other characters; `none` for any other
underscore. -/
def dropUnderscores? : List Char → Option (List Char)
  | [] => some []
  | [c] => if c = '_' then none else some [c]
  | c :: '_' :: d :: cs =>
    if c = '_' ∨ d = '_' then none else (dropUnderscores? (d :: cs)).map (c :: ·)
  | c :: cs => if c = '_' then none else (dropUnderscores? cs).map (c :: ·)

def numeral? (s : String) : Option Nat :=
  (dropUnderscores? s.toList).bind decimalNumeral?

end WordC.Text
