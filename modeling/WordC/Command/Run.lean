import WordC.Command.World
import WordC.Machine.Exec

/-!
# The command that runs a program

Only the first argument counts: a request for help or for the version, or the file of the program.
-/

namespace WordC.Command

def runUsage : String := "Usage: python main.py <source_file>"

/-- The program of a file; what is wrong with it is said, except for a character that the scanner
does not know. -/
def loadProgram (rounds : Nat) (p : String) : Command Program := do
  match (← get).files.program rounds p with
  | .ok program => return program
  | .error (.badToken text) => throw (.badToken text)
  | .error e =>
    match e with
    | .missing _ => abort ("Error: " ++ e.message)
    | .source _ => abort ("Preprocessing error: " ++ e.message)
    | _ => abort ("Syntax error: " ++ e.message)

/-- What is said about a run that did not return. -/
def signalText : Signal → String
  | .failure e => (if e.isForeseen then "Runtime error: " else "Unexpected error: ") ++ e.message
  | .returned v => "Unexpected error: " ++ toString v
  | .breakLoop | .continueLoop | .outOfFuel => "Unexpected error: "

/-- Runs a program and says what came of it. What it sends over the serial line comes first. -/
def runProgram (fuel : Nat) (program : Program) : Command Unit := do
  let (r, m) := program.run fuel {}
  write m.devices.sentText
  if m.asmWarned then modify fun w => { w with err := w.err ++ asmWarning }
  match r with
  | .ok v =>
    say ("Program executed successfully. Return value: " ++ toString v)
    exit 0
  | .error s => abort (signalText s)

/-- The command with its arguments. -/
def runFile (fuel : Nat) : List String → Command Unit
  | [] => abort runUsage
  | arg :: _ => do
    if arg ∈ ["-h", "--help", "-help"] then
      [runUsage, "", "Runs the Simple C-Style Language interpreter on the given .sc source file.",
        "Version: " ++ version].forM say
      exit 0
    if arg ∈ ["-V", "--version"] then
      say version
      exit 0
    runProgram fuel (← loadProgram fuel arg)

end WordC.Command
