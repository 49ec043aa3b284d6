/-!
# Columns

Text is filled up with blanks to the width of its column, on its left or on its right; a longer text
stands as it is.
-/

namespace WordC.Text

def blanks (n : Nat) : String := String.ofList (List.replicate n ' ')

/-- Fills a text up on its right. -/
def padRight (width : Nat) (s : String) : String := s ++ blanks (width - s.length)

/-- Fills a text up on its left. -/
def padLeft (width : Nat) (s : String) : String := blanks (width - s.length) ++ s

end WordC.Text
