import WordC.Command.Run
import WordC.Compile.Program

/-!
# The command that compiles a program

The listing of a program is written to a file and handed to the assembler, if there is one; on
request the machine then runs what the assembler made. Files that the assembler makes are looked for
under the listing's path with another extension.
-/

namespace WordC.Command

def compileUsage : List String :=
  ["Usage: python compile.py <source_file> [output_file] [--run]",
    "",
    "Compiles a .sc source file to FASM assembly (.asm), then to binary (.bin).",
    "If output_file is not specified, output will be <source_file>.asm",
    "",
    "Options:",
    "  -h, --help    Show this help",
    "  -V, --version Show version",
    "  --run         After compilation, run the binary using interpreter_x64.exe",
    "Version: " ++ version,
    "",
    "Examples:",
    "  python compile.py test_examples/basic/sum_range.sc",
    "  python compile.py test_examples/basic/sum_range.sc --run",
    "  python compile.py --run test_examples/basic/sum_range.sc"]

/-! ### Arguments -/

structure CompileArgs where
  source : Option String := none
  output : Option String := none
  run : Bool := false

/-- Reads the arguments in order. Options that are not known are passed over. -/
def compileArgs (got : CompileArgs) : List String → Command CompileArgs
  | [] => return got
  | arg :: rest => do
    if arg ∈ ["-h", "--help", "-help"] then
      compileUsage.forM say
      exit 0
    if arg ∈ ["-V", "--version"] then
      say version
      exit 0
    if arg = "--run" then compileArgs { got with run := true } rest
    else if arg.toList.head? = some '-' then compileArgs got rest
    else if got.source.isNone then compileArgs { got with source := some arg } rest
    else if got.output.isNone then compileArgs { got with output := some arg } rest
    else do
      say ("Error: unexpected argument '" ++ arg ++ "'")
      compileUsage.forM say
      exit 1

/-! ### Listing -/

/-- The path with another extension wherever the listing's extension stands in it. -/
def withExtension (listing extension : String) : String := listing.replace ".asm" extension

def listingText (lines : Array Asm.Line) : String :=
  "\n".intercalate (lines.toList.map Asm.Line.text)

/-- Writes the listing of a program to a file. -/
def writeListing (program : Program) (output : String) : Command Unit := do
  let w ← get
  match program.listing (program.includes w.project w.cwd output) with
  | .error e => abort ("Code generation error: " ++ e.message)
  | .ok lines =>
    match w.tree.write w.cwd output (listingText lines) with
    | .error e => abort ("Error writing output file: " ++ e.message)
    | .ok tree => do
      set { w with tree }
      say ("Assembly generated: " ++ output)

/-! ### Assembling -/

/-- Says why assembling failed and ends. -/
def assemblyFailed {α : Type} (text : String) : Command α :=
  abort ("FASM compilation error: " ++ text)

/-- Starts the assembler on a listing in the directory it stands in. -/
def startAssembler (assembler listing : String) : Command Unit := do
  let absolute := (← get).files.absolute listing
  let dir := Path.directory absolute
  inDirectory dir do
    match (← start [assembler, Path.fileName absolute] dir 30) with
    | .timedOut =>
      say "FASM compilation timed out after 30 seconds"
      assemblyFailed "FASM compilation timed out"
    | .finished code out err =>
      if code ≠ 0 then
        ["FASM compilation failed:", out, err].forM say
        assemblyFailed "FASM compilation failed"
      say "FASM compilation successful."
      let made (label extension : String) : Command Unit := do
        let p := withExtension listing extension
        if (← get).contains p then say ("  " ++ label ++ ": " ++ p)
      made "Binary" ".bin"
      made "MIF" ".mif"

/-- Hands a listing to the assembler; without one it says how to do it by hand. -/
def assemble (listing : String) : Command Unit := do
  let w ← get
  let assembler := w.tool "FASM.EXE"
  if w.contains assembler then
    tryCatch (startAssembler assembler listing) fun
      | .denied p => assemblyFailed (Stop.denied p).message
      | e => throw e
  else
    ["Warning: FASM.EXE not found at " ++ assembler,
      "Skipping binary compilation. You can compile manually with:",
      "  \"" ++ assembler ++ "\" \"" ++ listing ++ "\""].forM say

/-- Compiles a file and gives the path of its listing. -/
def compileSource (rounds : Nat) (source : String) (output : Option String) : Command String := do
  let output := output.getD (Path.withoutExtension source ++ ".asm")
  let program ← tryCatch (loadProgram rounds source) fun
    | .badToken text => abort (Stop.badToken text).message
    | e => throw e
  writeListing program output
  assemble output
  return output

/-! ### Running -/

/-- How many of the last lines of a text are shown. -/
def linesShown : Nat := 150

/-- A text of which only the last lines are shown when there are too many. -/
def lastLines (text : String) : List String :=
  let lines := Text.pieces text.toList
  if linesShown < lines.length then
    let omitted := lines.length - linesShown
    ["... (" ++ toString omitted ++ " lines omitted) ...", joinLines (lines.drop omitted)]
  else [text]

def rule : String := String.ofList (List.replicate 50 '=')

/-- Runs what the assembler made on the machine and ends with its exit code. -/
def runBinary (binary : String) : Command Unit := do
  let w ← get
  let machine := w.tool "interpreter_x64.exe"
  if !w.contains machine then abort ("Error: interpreter_x64.exe not found at " ++ machine)
  if !w.contains binary then
    say ("Error: Binary file '" ++ binary ++ "' not found.")
    abort "Compile the .asm file first with FASM."
  let absolute := w.files.absolute binary
  say ("Running interpreter: " ++ absolute)
  say rule
  match (← start [machine, absolute] (Path.directory absolute) 10) with
  | .timedOut =>
    [rule, "ERROR: Program execution timed out after 10 seconds",
      "This usually indicates an infinite loop or very slow execution.", rule].forM say
    exit 124
  | .finished code out err =>
    if out ≠ "" then (lastLines out).forM say
    if err ≠ "" then
      sayError "Errors:"
      (lastLines err).forM sayError
    exit code

/-- The command with its arguments. -/
def compileFile (rounds : Nat) (args : List String) : Command Unit := do
  if args = [] then
    compileUsage.forM say
    exit 1
  let got ← compileArgs {} args
  match got.source with
  | none =>
    say "Error: no source file specified."
    compileUsage.forM say
    exit 1
  | some source =>
    let listing ← compileSource rounds source got.output
    if got.run then runBinary (withExtension listing ".bin")

end WordC.Command
