import WordC.Json.Basic
import WordC.Number.Rounding
import WordC.Text.Column

/-!
# Coverage

What a coverage measurement found: for each file how many of its statements ran, and which lines did
not; and the benchmarks that failed on the way. The table shows the least covered files first.
-/

namespace WordC.Report

structure FileCoverage where
  name : String
  statements : Int
  missing : Int
  percent : Rat
  missingLines : List Int

structure Coverage where
  files : List FileCoverage
  statements : Int
  covered : Int
  percent : Rat
  /-- Benchmarks that failed, with the reason. -/
  failures : List (String × String)

/-- A path below the measured directory as seen from there. -/
def localName (dir path : String) : String :=
  let front := (dir ++ "/").toList
  if front.isPrefixOf path.toList then String.ofList (path.toList.drop front.length) else path

def FileCoverage.ofJson (dir path : String) (j : Json) : FileCoverage :=
  let summary := (j.get? "summary").getD .null
  { name := localName dir path
    statements := summary.intAt "num_statements"
    missing := summary.intAt "missing_lines"
    percent := summary.numberAt "percent_covered"
    missingLines := (j.itemsAt "missing_lines").map fun n => (n.number?.getD 0).floor }

def Coverage.ofJson (dir : String) (j : Json) : Coverage :=
  let totals := (j.get? "totals").getD .null
  { files := (j.membersAt "files").map fun (p, f) => .ofJson dir p f
    statements := totals.intAt "num_statements"
    covered := totals.intAt "covered_lines"
    percent := totals.numberAt "percent_covered"
    failures := (((j.get? "meta").getD .null).membersAt "_pti_bench_errors").map fun (b, e) =>
      (b, e.string?.getD "") }

/-! ### The table -/

/-- How much of a file's name is shown. -/
def nameLimit : Nat := 60

/-- How many missing lines are shown. -/
def linesLimit : Nat := 12

/-- How many files are shown. -/
def rowLimit : Nat := 120

def shownName (f : FileCoverage) : String := String.ofList (f.name.toList.take nameLimit)

def nameWidth (files : List FileCoverage) : Nat :=
  files.foldl (fun w f => max w (shownName f).length) 4

def countColumns (statements missing : Int) (percent : Rat) : String :=
  "  " ++ Text.padLeft 5 (toString statements) ++ "  " ++ Text.padLeft 4 (toString missing) ++
    "  " ++ Text.padLeft 4 (Number.fixed 0 percent) ++ "%"

def lineList (lines : List Int) : String :=
  ",".intercalate ((lines.take linesLimit).map toString) ++
    (if linesLimit < lines.length then "…" else "")

/-- The least covered file first, and of two equally covered ones that with more statements. -/
def isShownBefore (a b : FileCoverage) : Bool :=
  decide (a.percent < b.percent ∨ (a.percent = b.percent ∧ b.statements ≤ a.statements))

def Coverage.table (c : Coverage) : List String :=
  let width := nameWidth c.files
  let rule := String.ofList (List.replicate (width + 42) '-')
  let row (f : FileCoverage) : String :=
    Text.padRight width (shownName f) ++ countColumns f.statements f.missing f.percent ++ "  " ++
      lineList f.missingLines
  [Text.padRight width "Name" ++ "  Stmts  Miss  Cover  Missing", rule] ++
    ((c.files.mergeSort isShownBefore).take rowLimit).map row ++
    [rule, Text.padRight width "TOTAL" ++
    countColumns c.statements (c.statements - c.covered) c.percent]

/-- The first of the benchmarks that failed. -/
def Coverage.failureLines (c : Coverage) : List String :=
  if c.failures.isEmpty then []
  else ["", toString c.failures.length ++ " bench error(s):"] ++
    (c.failures.take 8).map fun (b, e) => "  " ++ b ++ ": " ++ e

end WordC.Report
