import WordC.Report.Coverage
import WordC.Report.History
import WordC.Report.SelfCheck
import WordC.Report.TimeShare
import WordC.Token.Scan

/-!
# A round of measuring

A round starts programs that measure coverage, shares of time and self-checks, and one that lists
changed files. From what they give back comes a text, and an entry for the history. A program that
cannot be started or gives back something else is noted on the second channel and its part is left
out; only without coverage there is no report.
-/

namespace WordC.Report

/-- What came of a started program. -/
inductive Started where
  | failed (reason : String)
  | ended (code : Int) (out err : String)

structure Round where
  /-- The directory that was measured. -/
  dir : String
  coverage : Option Json
  /-- The text of the benchmarks. -/
  benches : String
  /-- The text of the history. -/
  history : String
  coverageRun : Started
  /-- Programs that are not there are not started. -/
  shareRun : Option Started
  checkRun : Option Started
  changesRun : Started
  begun : Rat
  done : Rat
  now : Rat

structure Result where
  exit : Int
  out : String
  err : String
  entry : Option Json

/-! ### What programs give back -/

/-- Why the answer of a program was not used. -/
inductive AnswerError where
  | notStarted (reason : String)
  | notJson (e : Json.ReadError)
  | notObject (kind : String)

def AnswerError.message : AnswerError → String
  | notStarted reason => "OSError: " ++ reason
  | notJson e => "JSONDecodeError: " ++ e.message
  | notObject kind => "AttributeError: '" ++ kind ++ "' object has no attribute 'get'"

/-- The object on the last line of a program's answer; an empty line stands for the empty object. -/
def answer : Started → Except AnswerError Json
  | .failed reason => .error (.notStarted reason)
  | .ended _ out _ =>
    match (Text.lines out.toList).getLastD [] with
    | [] => .ok (.obj [])
    | last =>
      match Json.ofText last with
      | .error e => .error (.notJson e)
      | .ok j => if j.isObject then .ok j else .error (.notObject j.kind)

def Started.err : Started → String
  | failed _ => ""
  | ended _ _ err => err

/-- The answer of a program that may be missing, and what is said about it on the second channel. -/
def answerOf (label : String) : Option Started → Json × String
  | none => (.obj [], "")
  | some s =>
    match answer s with
    | .ok j => (j, s.err)
    | .error e => (.obj [], s.err ++ "[" ++ label ++ " runner: " ++ e.message ++ "]\n")

/-- The files that are listed as changed: each line but its first three characters. -/
def changedFiles : Started → List String
  | .failed _ => []
  | .ended _ out _ =>
    ((Text.lines out.toList).filter fun l => !(Text.trim l).isEmpty).map fun l =>
      String.ofList (l.drop 3)

def changedLines (files : List String) : List String :=
  if files.isEmpty then []
  else ["", "** repo modified (" ++ toString files.length ++
      " file(s)) — revert these; only microbench.py is yours to edit:"] ++
    (files.take 10).map ("   " ++ ·)

/-- The rests of a text that start behind a line feed. -/
def lineStarts : List Char → List (List Char)
  | [] => []
  | c :: cs => if c == '\n' then cs :: lineStarts cs else lineStarts cs

/-- Whether a text starts with the head of a benchmark: a name, white space and a parenthesis. -/
def startsBench (cs : List Char) : Bool :=
  let front := "def bench_".toList
  let name := (cs.drop front.length).takeWhile isWordChar
  let rest := (cs.drop (front.length + name.length)).dropWhile Text.isSpace
  front.isPrefixOf cs && !name.isEmpty && rest.head? == some '('

/-- How many benchmarks a text defines. -/
def benchCount (text : String) : Nat :=
  ((text.toList :: lineStarts text.toList).filter startsBench).length

/-! ### The report -/

namespace Round

def shares (r : Round) : TimeShares := .ofJson (answerOf "repotime" r.shareRun).1

def probes (r : Round) : List Probe := probesOf (answerOf "semcheck" r.checkRun).1

/-- The earlier rounds. -/
def past (r : Round) : History := .ofText r.history.toList

/-- Whether files of the measured code were changed. -/
def isModified (r : Round) : Bool := !(changedFiles r.changesRun).isEmpty

/-- How many benchmarks have a fault. -/
def faults (r : Round) : Nat :=
  (r.probes.filter fun p => (p.verdict r.isModified).isFault).length

/-- How long measuring took. -/
def took (r : Round) : Rat := Number.toDouble (r.done - r.begun)

def summary (r : Round) (cov : Coverage) : String :=
  let shareText := if r.shares.isEmpty then ""
    else ", " ++ toString r.shares.below ++ "/" ++ toString r.shares.measured ++
      " below repo_time 45%"
  let checkText := if r.probes.isEmpty then ""
    else ", " ++ toString r.faults ++ "/" ++ toString r.probes.length ++ " not self-checking"
  "[round " ++ toString (r.past.length + 1) ++ ": " ++ toString (benchCount r.benches) ++
    " benches, " ++ Number.fixed 1 cov.percent ++ "% covered" ++ shareText ++ checkText ++
    ", measured in " ++ Number.fixed 1 r.took ++ "s]"

/-- The findings of a round. Changed files are told with the probes only. -/
def findings (r : Round) (cov : Coverage) : List String :=
  let changed := if r.probes.isEmpty then [] else changedLines (changedFiles r.changesRun)
  cov.table ++ cov.failureLines ++ r.shares.lines ++ changed ++
    selfCheckLines r.isModified r.probes ++ ["", r.summary cov]

/-- Why measuring may stop after a round that had enough coverage and some share. -/
def convergence? (r : Round) (cov : Coverage) : Option Convergence :=
  if r.shares.measured ≠ 0 ∧ coverageBound ≤ cov.percent then
    Report.convergence? r.past.below r.shares.below
  else none

/-- What a round adds to the history. -/
def entry (r : Round) (cov : Coverage) : Json :=
  let sinceLast := match r.past.last with
    | some p => Number.toDouble (r.now - p.time)
    | none => 0
  .obj [
    ("round", .ofInt (r.past.length + 1)), ("ts", .ofRat r.now),
    ("wall_since_prev_s", .ofRat ((Number.nearestPlaces 2 sinceLast : Rat) / 100)),
    ("coverage_pct", .ofRat cov.percent), ("covered_lines", .ofInt cov.covered),
    ("num_statements", .ofInt cov.statements), ("n_bench_fns", .ofInt (benchCount r.benches)),
    ("n_bench_errors", .ofInt cov.failures.length),
    ("cov_measure_s", .ofRat ((Number.nearestPlaces 3 r.took : Rat) / 1000)),
    ("repo_time_pct", r.shares.given),
    ("n_below_repo_time", if r.shares.measured = 0 then .null else .ofInt r.shares.below),
    ("semcheck", .obj (r.probes.map fun p => (p.name, .str (p.verdict r.isModified).text))),
    ("n_not_self_checking", .ofInt r.faults)]

/-- The report of a round whose coverage is known. -/
def report (r : Round) (coverage : Json) : Result :=
  let cov := Coverage.ofJson r.dir coverage
  let stop := match r.convergence? cov with
    | some c => ["", c.line]
    | none => []
  { exit := 0
    out := Text.unlines (r.findings cov ++ stop)
    err := r.coverageRun.err ++ (answerOf "repotime" r.shareRun).2 ++
      (answerOf "semcheck" r.checkRun).2
    entry := if r.past.isReadable then some (r.entry cov) else none }

/-- What a round of measuring gives. -/
def outcome (r : Round) : Result :=
  match r.coverageRun, r.coverage with
  | .failed _, _ => { exit := 1, out := "", err := "", entry := none }
  | .ended code out err, coverage =>
    let failure (exit : Int) : Result :=
      { exit := exit
        out := Text.unlines ["coverage measurement failed (exit " ++ toString code ++ ")", out]
        err := err
        entry := none }
    if code ≠ 0 then failure code
    else
      match coverage with
      | none => failure 1
      | some j => r.report j

end Round

end WordC.Report
