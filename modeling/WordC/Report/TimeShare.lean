import WordC.Json.Basic
import WordC.Number.Rounding
import WordC.Text.Column

/-!
# Shares of time

For each benchmark the share of its time that is spent in the measured code, in percent. A negative
share says that it could not be measured. Shares below a bound are marked, and the foreign code that
takes most of the time is named for them.
-/

namespace WordC.Report

structure TimeShares where
  shares : List (String × Rat)
  /-- Foreign code by benchmark, with its share. -/
  foreign : List (String × List (Rat × String))
  /-- The shares as they were given. -/
  given : Json

/-- The bound below which a share is marked. -/
def shareBound : Rat := 45

def isMeasured (share : Rat) : Bool := decide (0 ≤ share)

def isBelow (share : Rat) : Bool := decide (0 ≤ share ∧ share < shareBound)

namespace TimeShares

def none : TimeShares := ⟨[], [], .obj []⟩

def ofJson (j : Json) : TimeShares :=
  let given := (j.get? "repo_time_pct").getD (.obj [])
  let pairOf (x : Json) : Rat × String :=
    match x.items with
    | q :: name :: _ => (q.number?.getD 0, name.string?.getD "")
    | _ => (0, "")
  { shares := given.members.map fun (b, q) => (b, q.number?.getD 0)
    foreign := (j.membersAt "hot_ext").map fun (b, xs) => (b, xs.items.map pairOf)
    given := given }

def isEmpty (t : TimeShares) : Bool := t.shares.isEmpty

/-- How many shares are below the bound. -/
def below (t : TimeShares) : Nat := (t.shares.filter fun s => isBelow s.2).length

/-- How many shares could be measured. -/
def measured (t : TimeShares) : Nat := (t.shares.filter fun s => isMeasured s.2).length

def foreignText (t : TimeShares) (bench : String) : String :=
  match t.foreign.lookup bench with
  | some (x :: xs) =>
    " (hot: " ++
      " ".intercalate ((x :: xs).map fun (q, name) => name ++ " " ++ Number.fixed 0 q ++ "%") ++ ")"
  | _ => ""

/-- The shares, the lowest first. -/
def lines (t : TimeShares) : List String :=
  let row : String × Rat → String := fun (b, q) =>
    let share := if isMeasured q then q else 0
    "  " ++ (if isBelow q then "*" else " ") ++ " " ++ Text.padRight 32 b ++ " " ++
      Text.padLeft 5 (Number.fixed 1 share) ++ "%" ++
      (if !isMeasured q then "  <error>" else if isBelow q then t.foreignText b else "")
  if t.isEmpty then []
  else ["", "repo_time (target 50%; * = below 45%):"] ++
    (t.shares.mergeSort fun a b => decide (a.2 ≤ b.2)).map row

end TimeShares

end WordC.Report
