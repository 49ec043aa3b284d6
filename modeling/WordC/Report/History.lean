import WordC.Json.Parse
import WordC.Text.Space

/-!
# History

Each round of measuring leaves a line of JSON behind. The earlier rounds tell whether the number of
benchmarks below the bound still falls: the best number so far, and for how many rounds it has not
been bettered.
-/

namespace WordC.Report

/-- The coverage in percent from which on a round may be the last one. -/
def coverageBound : Rat := 60

/-- For how many rounds the best number may stay the same. -/
def patience : Nat := 3

structure PastRound where
  /-- Benchmarks below the bound, if their number was noted. -/
  below : Option Int
  time : Rat

def PastRound.ofJson (j : Json) : PastRound :=
  { below := (j.get? "n_below_repo_time").bind Json.int?, time := j.numberAt "ts" }

/-- The lines of a history that are not blank. -/
def historyLines (text : List Char) : List (List Char) :=
  (Text.pieces text).filter fun l => !(Text.trim l).isEmpty

/-- The round that a line describes, if it can be read. -/
def pastRound? (line : List Char) : Option PastRound :=
  match Json.ofText (Text.trim line) with
  | .ok j => if j.isObject then some (.ofJson j) else none
  | .error _ => none

/-- The rounds of the lines before the first one that cannot be read. -/
def pastRounds : List (List Char) → List PastRound
  | [] => []
  | l :: ls =>
    match pastRound? l with
    | some r => r :: pastRounds ls
    | none => []

/-- What is known of the earlier rounds. -/
structure History where
  /-- How many rounds there were. -/
  length : Nat
  last : Option PastRound
  /-- The numbers of benchmarks below the bound, where one was noted. -/
  below : List Int
  /-- Whether every line could be read. Nothing is added to a history with another line. -/
  isReadable : Bool

/-- Reads a history. The last line comes first: if it cannot be read, then no line is. -/
def History.ofText (text : List Char) : History :=
  let lines := historyLines text
  let last := lines.getLast?.bind pastRound?
  let rounds := if last.isSome then pastRounds lines else []
  { length := lines.length
    last := last
    below := rounds.filterMap PastRound.below
    isReadable := rounds.length == lines.length }

/-! ### Plateaus -/

/-- The best of some counts, and how many counts have come since without bettering it. -/
structure Plateau where
  best : Int
  since : Nat
  deriving DecidableEq, Repr

namespace Plateau

def step (p : Plateau) (n : Int) : Plateau := if n < p.best then ⟨n, 0⟩ else ⟨p.best, p.since + 1⟩

/-- The plateau that counts end in. -/
def of (first : Int) (rest : List Int) : Plateau := rest.foldl step ⟨first, 0⟩

/-- The plateau of earlier counts and one more. -/
def ofHistory (earlier : List Int) (now : Int) : Plateau :=
  match earlier with
  | [] => of now []
  | n :: ns => of n (ns ++ [now])

end Plateau

/-- Why measuring may stop. -/
inductive Convergence where
  | noneBelow
  | plateau (p : Plateau)

/-- Whether measuring may stop: nothing is below the bound, or that number has not got better for
long enough. -/
def convergence? (earlier : List Int) (now : Int) : Option Convergence :=
  let p := Plateau.ofHistory earlier now
  if now = 0 then some .noneBelow
  else if patience ≤ p.since then some (.plateau p)
  else none

def Convergence.reason : Convergence → String
  | noneBelow => "0 below"
  | plateau p =>
    "no improvement in " ++ toString p.since ++ " rounds; best " ++ toString p.best ++ " below"

def Convergence.line (c : Convergence) : String :=
  ">>> STOP: repo_time converged (" ++ c.reason ++ "). Finalize microbench.py now. <<<"

end WordC.Report
