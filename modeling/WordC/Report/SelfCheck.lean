import WordC.Json.Basic
import WordC.Number.Rounding
import WordC.Text.Column

/-!
# Self-checks

A benchmark should return something that depends on the work it measures. What is known of its
results (their type, a print of each result, of the parameters and of the results by parameter) and
of its times gives a verdict; the first fault found counts. When files of the measured code were
changed, no other verdict is given.
-/

namespace WordC.Report

inductive Verdict where
  | repoModified
  | error
  | returnsNone
  | unstable
  | returnsInput
  | tooFast
  | lowRepoTime
  | paramInvariant
  | okUnparam
  | ok
  deriving DecidableEq, Repr

namespace Verdict

def text : Verdict → String
  | repoModified => "repo-modified"
  | error => "error"
  | returnsNone => "returns-none"
  | unstable => "unstable"
  | returnsInput => "returns-input"
  | tooFast => "too-fast"
  | lowRepoTime => "low-repo-time"
  | paramInvariant => "param-invariant"
  | okUnparam => "ok-unparam"
  | ok => "ok"

def isFault : Verdict → Bool
  | ok | okUnparam => false
  | _ => true

end Verdict

/-- What is known of a benchmark's results and times. -/
structure Probe where
  name : String
  returnType : Option String
  /-- Prints of the results of repeated runs. -/
  prints : List String
  /-- Prints of the parameters. -/
  paramPrints : List String
  /-- Prints of the results by parameter. -/
  printsByParam : List String
  /-- Shares of time in the measured code, between zero and one. -/
  shares : List Rat
  /-- Times in milliseconds. -/
  times : List Rat

namespace Probe

def ofJson (name : String) (j : Json) : Probe :=
  let texts (xs : List Json) := xs.filterMap Json.string?
  let numbers (key : String) := (j.membersAt key).filterMap fun m => m.2.number?
  { name := name
    returnType := (j.get? "ret_type").bind Json.string?
    prints := texts (j.itemsAt "fp_stable")
    paramPrints := texts (j.itemsAt "param_fps")
    printsByParam := texts ((j.membersAt "fp_by_param").map (·.2))
    shares := numbers "repo_frac"
    times := numbers "repo_tt_ms" }

/-- The lowest share; zero when there is none. -/
def share (p : Probe) : Rat :=
  match p.shares with
  | [] => 0
  | q :: qs => qs.foldl (fun low x => if x < low then x else low) q

def time (p : Probe) : Rat := (Number.median? p.times).getD 0

def hasFailed (p : Probe) : Bool :=
  match p.returnType with
  | none => true
  | some t => t.toList.head? == some '<'

/-- Whether all runs gave the same result. -/
def isStable (p : Probe) : Bool :=
  match p.prints with
  | [] => false
  | x :: xs => xs.all (· == x)

def returnsParam (p : Probe) : Bool :=
  match p.prints with
  | [] => false
  | x :: _ => p.paramPrints.contains x

/-- Whether there are several parameters and all of them give the same result. -/
def ignoresParams (p : Probe) : Bool :=
  match p.printsByParam with
  | x :: y :: ys => (y :: ys).all (· == x)
  | _ => false

/-- The verdict on a benchmark. `modified` says that files of the measured code were changed. -/
def verdict (modified : Bool) (p : Probe) : Verdict :=
  if modified then .repoModified
  else if p.hasFailed then .error
  else if p.returnType = some "NoneType" then .returnsNone
  else if !p.isStable then .unstable
  else if p.returnsParam then .returnsInput
  else if !p.shares.isEmpty && decide (p.share < 1 / 2) then .lowRepoTime
  else if !p.times.isEmpty && decide (p.time < 1) then .tooFast
  else if p.ignoresParams then .paramInvariant
  else if p.printsByParam.length < 2 then .okUnparam
  else .ok

end Probe

/-- The probes of all benchmarks that are described. -/
def probesOf (j : Json) : List Probe :=
  ((j.membersAt "semcheck").filter fun m => m.2.isObject).map fun (b, p) => .ofJson b p

def selfCheckHelp : List String :=
  ["  returns-none: run() has no return — collect and return the call results",
    "  unstable: seed RNG in setup; avoid time/uuid/id in the return",
    "  returns-input: return repo output, not the parameter value",
    "  low-repo-time: <50% of run() time is in repo code — move glue to setup",
    "  param-invariant: return something derived from run()'s work, not setup",
    "  repo-modified: revert edits to repo files (git checkout -- <path>)"]

/-- The verdicts, faults first. -/
def selfCheckLines (modified : Bool) (probes : List Probe) : List String :=
  let row (p : Probe) : String :=
    let v := p.verdict modified
    "  " ++ (if v.isFault then "*" else " ") ++ " " ++ Text.padRight 32 p.name ++ " " ++
      Text.padRight 16 v.text ++ " (" ++ p.returnType.getD "?" ++ ", repo " ++
      Number.fixed 0 (Number.toDouble (p.share * 100)) ++ "%) " ++ Number.fixed 1 p.time ++ "ms"
  let faulty (p : Probe) := (p.verdict modified).isFault
  if probes.isEmpty then []
  else ["", "self-check (* = fix needed):"] ++ selfCheckHelp ++
    (probes.filter faulty ++ probes.filter fun p => !faulty p).map row

end WordC.Report
