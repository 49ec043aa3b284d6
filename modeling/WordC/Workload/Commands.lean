import WordC.Command.Compile
import WordC.Workload.Reading

/-!
# Commands to measure

Both commands are called with arguments and files of every kind, one call after another in the same
directory. Assembler and machine are stood in for: for each call it is given what they do. The
number that comes out is that of the functions of the program, of the files that were refused, and
of the calls that did not end by themselves.
-/

namespace WordC.Workload

/-- A program of functions that add their number and four to what they are given. -/
def chainProgram (functions : Nat) : String :=
  let function (i : Nat) :=
    "function f" ++ toString i ++ "(a) \x7b return a + " ++ toString i ++ " + 4; \x7d"
  let call (i : Nat) := "    t = f" ++ toString i ++ "(t);"
  let numbers := List.range functions
  Text.unlines (numbers.map function ++ ["function main() \x7b", "    uint32 t = 0;"] ++
    numbers.map call ++ ["    return t;", "\x7d"])

/-- The files that the commands are called with. -/
def commandFiles (functions : Nat) : List (String × String) :=
  [("ok.sc", chainProgram functions),
    ("token.sc", "function main() \x7b return @; \x7d"),
    ("grammar.sc", "function main() \x7b a = 1+return; \x7d"),
    ("include.sc", "#include \"nowhere.sc\"\n"),
    ("zero.sc", "function main() \x7b return 1 / 0; \x7d"),
    ("name.sc", "function main() \x7b return nope; \x7d"),
    ("out.bin", ""),
    ("out.mif", "")]

/-- A call of a command, with what assembler and machine do when they are started. -/
structure Call where
  command : Command Unit
  /-- Nothing for a call that does not assemble. -/
  assembler : Option Outcome := none
  machine : Outcome := .finished 0 "" ""

/-- Numbered lines, more than are shown of a program's answer. -/
def manyLines : String := "\n".intercalate ((List.range 200).map fun i => "line" ++ toString i)

/-- The calls, made in a directory, one after another. -/
def calls (fuel : Nat) (dir : String) : List Call :=
  let inDir (name : String) := dir ++ "/" ++ name
  let missing := "/no/such/file.sc"
  let out := inDir "out.asm"
  let run (args : List String) : Call := { command := Command.runFile fuel args }
  let compile (args : List String) (assembler machine : Outcome) : Call :=
    { command := Command.compileFile fuel args, assembler := some assembler, machine := machine }
  let fine := Outcome.finished 0 "" ""
  [run [], run ["-h"], run ["-V"], run [missing], run [inDir "token.sc"], run [inDir "grammar.sc"],
    run [inDir "include.sc"], run [inDir "zero.sc"], run [inDir "ok.sc"]] ++
  [[], ["-h"], ["-V"], [missing], [inDir "token.sc"], [inDir "grammar.sc"], [inDir "include.sc"],
    [inDir "name.sc"],
    [inDir "ok.sc", out], [inDir "ok.sc", out, "--run"],
    [inDir "ok.sc", out, "extra"], ["--run"]].map
      (fun args => compile args fine fine) ++
  [compile [inDir "ok.sc", out, "--run"] fine (.finished 0 manyLines manyLines),
    compile [inDir "ok.sc", out, "--run"] fine (.finished 0 "ok" "e"),
    compile [inDir "ok.sc", out] (.finished 1 "fail" "bad") fine,
    compile [inDir "ok.sc", out] .timedOut fine,
    { command := Command.runBinary (inDir "out.bin"), machine := .timedOut },
    { command := Command.runBinary (inDir "no.bin") }]

/-- Makes a call. The text on both channels goes behind what was written before, and a call that
stops is counted. -/
def makeCall (done : World × Nat) (c : Call) : World × Nat :=
  let (w, stopped) := done
  let assembler := if w.contains (w.tool "FASM.EXE") then c.assembler.toList else []
  let before := w.out
  let (r, w) := (ExceptT.run c.command).run
    { w with
      out := "", err := ""
      children := some ((assembler ++ [c.machine]).map fun o => { outcome := o }) }
  ({ w with out := before ++ w.out ++ w.err },
    match r with
    | .ok () => stopped
    | .error _ => stopped + 1)

/-- How many of some files are refused. -/
def refused (fuel : Nat) (files : Files) (paths : List String) : Nat :=
  (paths.filter fun p => match files.program fuel p with
    | .ok _ => false
    | .error _ => true).length

def functionCount (fuel : Nat) (files : Files) (path : String) : Nat :=
  match files.program fuel path with
  | .ok p => p.functions.length
  | .error _ => 0

/-- The number and the text of the calls, made with a number of functions in a directory of the
world. -/
def commandWork (fuel functions : Nat) (dir : String) (world : World) : Nat × String :=
  let place (name : String) : Place := Path.normalParts (dir ++ "/" ++ name)
  let tree := (commandFiles functions).foldl
    (fun t (name, text) => t.put (place name) (.file text.toUTF8.toList)) world.tree
  let world := { world with tree := tree }
  let (w, stopped) := (calls fuel dir).foldl makeCall (world, 0)
  let counted := functionCount fuel world.files (dir ++ "/ok.sc") +
    refused fuel world.files ["/no/such/file.sc", dir ++ "/token.sc"]
  (counted + stopped, w.out)

def commandParameter : Parameter := { name := "n_funcs", usual := 15, values := [5, 15, 40] }

/-- A workload by its name: its parameter, and the number and the text that come of it. -/
def named? (fuel : Nat) (dir : String) (world : World) :
    String → Option (Parameter × (Nat → Nat × String))
  | "lexer_tokenize" => some (scanParameter, fun n => (scanWork n, ""))
  | "parser_full" => some (readParameter, fun n => (readWork n, ""))
  | "pipeline_and_cli" => some (commandParameter, fun n => commandWork fuel n dir world)
  | _ => none

end WordC.Workload
