/-!
# Rounding

Rounding goes to the nearest number of a grid, and from the middle between two of them to the even
one. The grid is the integers, the decimals with a number of places, or the numbers with fifty-three
significant bits, which measured numbers are kept with; the range of their exponents is not bounded
here.
-/

namespace WordC.Number

/-- The nearest integer. -/
def nearest (q : Rat) : Int :=
  let low := q.floor
  let above := q - low
  if above < 1 / 2 then low
  else if 1 / 2 < above then low + 1
  else if low % 2 = 0 then low
  else low + 1

/-- The nearest decimal with a number of places, in units of its last place. -/
def nearestPlaces (places : Nat) (q : Rat) : Int := nearest (q * (10 : Rat) ^ places)

def powerOfTwo (e : Int) : Rat := if 0 ≤ e then (2 : Rat) ^ e.toNat else 1 / (2 : Rat) ^ (-e).toNat

/-- The place of the last of fifty-three significant bits. -/
def lastBit (q : Rat) : Int :=
  let guess : Int := (q.num.natAbs.log2 : Int) - (q.den.log2 : Int) - 52
  let size := if q < 0 then -q else q
  if size < powerOfTwo (guess + 52) then guess - 1 else guess

/-- The nearest number with fifty-three significant bits. -/
def toDouble (q : Rat) : Rat :=
  if q = 0 then 0
  else
    let unit := powerOfTwo (lastBit q)
    nearest (q / unit) * unit

/-- The text of a number with a number of places. -/
def fixed (places : Nat) (q : Rat) : String :=
  let units := (nearestPlaces places q).natAbs
  let digits := toString (units % Nat.pow 10 places)
  let whole := toString (units / Nat.pow 10 places)
  let sign := if q < 0 then "-" else ""
  if places = 0 then sign ++ whole
  else sign ++ whole ++ "." ++ String.ofList (List.replicate (places - digits.length) '0') ++ digits

/-- The middle one of some numbers, or the number between the two middle ones. -/
def median? (qs : List Rat) : Option Rat :=
  let sorted := qs.mergeSort fun a b => decide (a ≤ b)
  let half := sorted.length / 2
  if sorted.length % 2 = 1 then sorted[half]?
  else
    match sorted[half - 1]?, sorted[half]? with
    | some a, some b => some (toDouble (a + b) / 2)
    | _, _ => none

end WordC.Number
