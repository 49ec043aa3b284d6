/-!
# Tables of code points

A property of characters is given by the closed intervals of code points that have it.
-/

namespace WordC.Text

def inRanges (table : List (Nat × Nat)) (n : Nat) : Bool :=
  table.any fun r => decide (r.1 ≤ n) && decide (n ≤ r.2)

/-- The first code point of the interval that holds `n`. -/
def rangeStart? (table : List (Nat × Nat)) (n : Nat) : Option Nat :=
  (table.find? fun r => decide (r.1 ≤ n) && decide (n ≤ r.2)).map (·.1)

end WordC.Text
