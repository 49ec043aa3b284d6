import WordC.Source.Program

/-!
# The world of a command

A command sees a tree of files and a working directory, writes text on two channels, and may start
other programs. What these do is given beforehand, one entry for each start in turn; without such
entries no program can be started. A command ends by itself, with an exit code, or with a failure
that it does not handle.
-/

namespace WordC

def version : String := "1.1.0"

/-- How a started program ended. -/
inductive Outcome where
  | timedOut
  | finished (code : Int) (out err : String)

/-- What one start of a program does: the files it writes, and how it ends. -/
structure Child where
  files : List (Place × FileEntry) := []
  outcome : Outcome := .finished 0 "" ""

/-- A start of a program: its path and arguments, the directory it runs in, and its time limit in
seconds. -/
structure Start where
  words : List String
  dir : String
  limit : Nat

structure World where
  tree : FileTree
  cwd : String
  /-- The directory that holds the assembler and the machine. -/
  project : String
  out : String := ""
  err : String := ""
  children : Option (List Child) := none
  starts : List Start := []

/-- How a command ends before its last step. -/
inductive Stop where
  | exit (code : Int)
  | badToken (text : String)
  | denied (program : String)

abbrev Command (α : Type) := ExceptT Stop (StateM World) α

namespace Stop

def message : Stop → String
  | exit code => toString code
  | badToken text => (BuildError.badToken text).message
  | denied program => "[Errno 13] Permission denied: " ++ Text.quote program

end Stop

namespace World

def files (w : World) : Files := ⟨w.tree, w.cwd⟩

def contains (w : World) (p : String) : Bool := w.files.contains p

/-- A program of the project. -/
def tool (w : World) (name : String) : String := Path.join (Path.join w.project "int_pack") name

end World

namespace Command

def write (text : String) : Command Unit := modify fun w => { w with out := w.out ++ text }

/-- Writes a line. -/
def say (text : String) : Command Unit := write (text ++ "\n")

/-- Writes a line on the second channel. -/
def sayError (text : String) : Command Unit :=
  modify fun w => { w with err := w.err ++ text ++ "\n" }

def exit {α : Type} (code : Int) : Command α := throw (.exit code)

/-- Says a line and ends without success. -/
def abort {α : Type} (text : String) : Command α := do
  say text
  exit 1

/-- Starts a program and waits for it. -/
def start (words : List String) (dir : String) (limit : Nat) : Command Outcome := do
  let w ← get
  match w.children with
  | some (c :: rest) =>
    set ({ w with
      tree := c.files.foldl (fun t f => t.put f.1 f.2) w.tree
      children := some rest
      starts := w.starts ++ [⟨words, dir, limit⟩] } : World)
    return c.outcome
  | _ => throw (.denied (words.headD ""))

/-- Runs a step in another directory and comes back however it ends. -/
def inDirectory {α : Type} (dir : String) (step : Command α) : Command α := fun w =>
  let (r, v) := step { w with cwd := dir }
  (r, { v with cwd := w.cwd })

/-- The exit code of a command that ended, or the failure that it did not handle. -/
def exitCode : Except Stop Unit → Except Stop Int
  | .ok () => .ok 0
  | .error (.exit code) => .ok code
  | .error e => .error e

end Command

end WordC
