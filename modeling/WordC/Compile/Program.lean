import WordC.Compile.Stmt
import WordC.Files.Path

/-!
# Code for programs

A listing starts with the files it includes, then come the code of the globals, the main function,
the other functions in order, and the data section. The compiler can be used again: it starts a new
listing and goes on with its tables.
-/

namespace WordC

open Asm Compile

namespace Compile

def includeLine (path : String) : Line := .directive ("include \"" ++ path ++ "\"")

/-- Files that a listing includes when it is not known where it will stand. -/
def defaultIncludes : List String := ["../int_pack/ISA.inc"]

def functionAll : List Func → Compile Unit
  | [] => return ()
  | f :: fs => do
    f.compile
    functionAll fs

def globalAll : List Decl → Compile Unit
  | [] => return ()
  | d :: ds => do
    decl d
    globalAll ds

end Compile

namespace Program

/-- The main function, the last one if there are several. -/
def mainFunction? (p : Program) : Option Func := p.function? "main"

def otherFunctions (p : Program) : List Func := p.functions.filter fun f => f.name != "main"

/-- The files that the listing of a program includes when it is to stand at `output`, seen from
there. The instruction set is always among them, the macros only for a main function. An empty
`output` is no place. -/
def includes (p : Program) (project cwd output : String) : List String :=
  if output = "" then defaultIncludes
  else
    let dir := Path.directory (Path.absolute cwd output)
    let way (file : String) := Path.relative dir (Path.join (Path.join project "int_pack") file)
    if p.hasMain then [way "ISA.inc", way "macros.inc"] else [way "ISA.inc"]

/-- Writes the listing of a program that includes the given files. -/
def compile (p : Program) (includes : List String) : Compile Unit := do
  modify fun c => { c with code := #[] }
  line (.directive ";format binary")
  line .blank
  includes.forM fun path => line (includeLine path)
  line .blank
  modify fun c => { c with
    functions := p.functions.foldl (fun t f => t.set f.name (functionLabel f.name)) c.functions }
  globalAll p.globals
  if let some f := p.mainFunction? then
    line (.directive "entry main")
    line .blank
    f.compile
  functionAll p.otherFunctions
  modify fun c =>
    if c.data.isEmpty then c
    else { c with code := c.code ++ #[.blank, .directive "; Data section"] ++ c.data }

/-- The listing of a program. -/
def listing (p : Program) (includes : List String) : Except CompileError (Array Line) :=
  match (ExceptT.run (p.compile includes)).run {} with
  | (.ok (), c) => .ok c.code
  | (.error e, _) => .error e

end Program

end WordC
