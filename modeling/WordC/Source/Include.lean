import WordC.Files.Tree
import WordC.Source.Directive
import WordC.Source.Macro

/-!
# Includes

A source file becomes one text: definitions are taken up and their lines dropped, included files
stand in place of the line that includes them, between two comments, and the macros defined so far
are replaced in every other line. Each path may be included once only, however it is reached. Since
a file is entered only while its path is not yet among those included, the files of the tree bound
how deep includes can go: a path starts with one slash or with two, so a file has two of them.
-/

namespace WordC

/-- Why source files could not be put together. -/
inductive SourceError where
  | circular (path : String)
  | missing (path : String)
  | unreadable (path : String) (e : FileError)
  | notFound (name : String)
  | badDefine (line : Nat) (e : DefineError)
  | badInclude (line : Nat) (text : List Char)
  | included (line : Nat) (e : SourceError)
  /-- The macros did not settle within the rounds given. -/
  | unsettled
  /-- Includes went deeper than there are paths of files. -/
  | tooDeep
  deriving Repr

def SourceError.message : SourceError → String
  | circular p => "Circular include detected: " ++ p
  | missing p => "File not found: " ++ p
  | unreadable p e => "Error reading file " ++ p ++ ": " ++ e.message
  | notFound name => "Include file not found: " ++ name
  | badDefine n e => "Line " ++ toString n ++ ": " ++ e.message
  | badInclude n text =>
    "Invalid #include directive at line " ++ toString n ++ ": " ++ String.ofList text
  | included n e => "Include error at line " ++ toString n ++ ": " ++ e.message
  | unsettled => "Macros do not settle"
  | tooDeep => "Includes nested too deep"

/-- Where files are looked for. -/
structure Files where
  tree : FileTree
  cwd : String

namespace Files

def contains (w : Files) (p : String) : Bool := w.tree.contains w.cwd p

def absolute (w : Files) (p : String) : String := Path.absolute w.cwd p

end Files

/-- What has been gathered: the directory that includes are looked for in, the files taken up, and
the macros. -/
structure Gathered where
  base : String
  included : List String := []
  macros : Macros := {}

abbrev Gather (α : Type) := ExceptT SourceError (StateM Gathered) α

namespace Gather

/-- Where an included file stands: below the including file's directory, below the base, or below
the working directory. -/
def resolve (w : Files) (dir : Option String) (name : String) : Gather String := do
  if Path.isAbsolute name then return name
  let here := match dir with
    | some d => if d = "" then [] else [Path.join d name]
    | none => []
  match (here ++ [Path.join (← get).base name, name]).find? w.contains with
  | some p => return w.absolute p
  | none => throw (.notFound name)

def expand (rounds : Nat) (line : List Char) : Gather (List Char) := do
  match (← get).macros.expand? rounds line with
  | some cs => return cs
  | none => throw .unsettled

/-- The lines of a text that is shown as a whole: a text without lines is one empty line. -/
def block (lines : List (List Char)) : List (List Char) := if lines.isEmpty then [[]] else lines

/-- The lines that stand for a line of a file. `file` takes up an included file. -/
def line (w : Files) (rounds : Nat) (file : String → Gather (List (List Char)))
    (dir : Option String) (n : Nat) (cs : List Char) : Gather (List (List Char)) := do
  let trimmed := Text.trim cs
  if "#define".toList.isPrefixOf trimmed then
    match Directive.define? cs with
    | .ok (some (name, value)) =>
      modify fun g => { g with macros := g.macros.set (String.ofList name) value }
      return []
    | .ok none => return []
    | .error e => throw (.badDefine n e)
  else if "#undef".toList.isPrefixOf trimmed then
    if let some name := Directive.undef? cs then
      modify fun g => { g with macros := g.macros.erase (String.ofList name) }
    return []
  else if "#include".toList.isPrefixOf trimmed then
    match Directive.includeName? trimmed with
    | none | some [] => throw (.badInclude n trimmed)
    | some name =>
      let text := String.ofList name
      let inner ← ExceptT.adapt (SourceError.included n) (do file (← resolve w dir text))
      return ("// Included from: ".toList ++ name) :: block inner ++
        ["// End include: ".toList ++ name]
  else return [← expand rounds cs]

/-- The lines that stand for the lines of a file, from a line number on. `done` holds those so far
backwards. -/
def linesFrom (w : Files) (rounds : Nat)
    (file : String → Gather (List (List Char))) (dir : Option String) :
    (n : Nat) → (done : List (List Char)) → List (List Char) → Gather (List (List Char))
  | _, done, [] => return done.reverse
  | n, done, cs :: rest => do
    let new ← line w rounds file dir n cs
    linesFrom w rounds file dir (n + 1) (new.reverse ++ done) rest

def contentWith (w : Files) (rounds : Nat) (file : String → Gather (List (List Char)))
    (dir : Option String) (text : List Char) : Gather (List (List Char)) :=
  linesFrom w rounds file dir 1 [] (Text.pieces text)

/-- The lines of a file. `file` takes up an included file. -/
def fileWith (w : Files) (rounds : Nat) (file : String → Gather (List (List Char))) (p : String) :
    Gather (List (List Char)) := do
  let a := w.absolute p
  if a ∈ (← get).included then throw (.circular a)
  if !w.contains a then throw (.missing a)
  match w.tree.read w.cwd a with
  | .error e => throw (.unreadable a e)
  | .ok text =>
    modify fun g => { g with included := g.included ++ [a] }
    contentWith w rounds file (some (Path.directory a)) text

/-- The lines of a file with its includes up to a depth. -/
def fileAt (w : Files) (rounds : Nat) : (depth : Nat) → String → Gather (List (List Char))
  | 0, _ => throw .tooDeep
  | depth + 1, p => fileWith w rounds (fileAt w rounds depth) p

/-- A depth that includes cannot pass. -/
def depth (w : Files) : Nat := 2 * w.tree.entries.length + 1

def file (w : Files) (rounds : Nat) (p : String) : Gather (List (List Char)) :=
  fileAt w rounds (depth w) p

def content (w : Files) (rounds : Nat) (dir : Option String) (text : List Char) :
    Gather (List (List Char)) :=
  contentWith w rounds (file w rounds) dir text

/-- Gathers a main file anew; includes are then also looked for in its directory. -/
def mainFile (w : Files) (rounds : Nat) (p : String) : Gather (List (List Char)) := do
  set ({ base := Path.directory (w.absolute p) } : Gathered)
  file w rounds p

end Gather

/-- Lines as one text. -/
def joinLines (lines : List (List Char)) : String := String.ofList (['\n'].intercalate lines)

end WordC
