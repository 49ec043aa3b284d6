/-!
# White space and line breaks

White space is trimmed from both ends of a line, and a text is cut into lines at every line break of
the standard, the pair of carriage return and line feed being one break.
-/

namespace WordC.Text

def isSpace (c : Char) : Bool :=
  let n := c.toNat
  decide ((9 ≤ n ∧ n ≤ 13) ∨ (28 ≤ n ∧ n ≤ 32) ∨ n = 0x85 ∨ n = 0xa0 ∨ n = 0x1680 ∨
    (0x2000 ≤ n ∧ n ≤ 0x200a) ∨ n = 0x2028 ∨ n = 0x2029 ∨ n = 0x202f ∨ n = 0x205f ∨ n = 0x3000)

def trimLeft (cs : List Char) : List Char := cs.dropWhile isSpace

def trimRight (cs : List Char) : List Char := (cs.reverse.dropWhile isSpace).reverse

def trim (cs : List Char) : List Char := trimRight (trimLeft cs)

def isLineBreak (c : Char) : Bool :=
  let n := c.toNat
  decide ((10 ≤ n ∧ n ≤ 13) ∨ (28 ≤ n ∧ n ≤ 30) ∨ n = 0x85 ∨ n = 0x2028 ∨ n = 0x2029)

/-- Cuts a text into lines, newest first in `done`; `line` holds the open line backwards. -/
def linesFrom (done : List (List Char)) (line : List Char) : List Char → List (List Char)
  | [] => (if line.isEmpty then done else line.reverse :: done).reverse
  | '\r' :: '\n' :: cs => linesFrom (line.reverse :: done) [] cs
  | c :: cs =>
    if isLineBreak c then linesFrom (line.reverse :: done) [] cs else linesFrom done (c :: line) cs

/-- The lines of a text without their breaks. A break at the end opens no further line. -/
def lines (cs : List Char) : List (List Char) := linesFrom [] [] cs

/-- Cuts a text at every line feed, so that there is one more piece than there are line feeds. -/
def pieces (cs : List Char) : List (List Char) := cs.splitOn '\n'

/-- Lines as a text, each with a line feed at its end. -/
def unlines (ls : List String) : String := String.join (ls.map (· ++ "\n"))

end WordC.Text
