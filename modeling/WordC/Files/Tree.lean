import WordC.Files.Path
import WordC.Text.Quoted
import WordC.Text.Utf8

/-!
# A tree of files

Entries are kept under the parts of their absolute paths; whatever stands above an entry is a
directory. A path is followed part by part, so a double dot behind a name needs that name to be a
directory.
-/

namespace WordC

inductive FileEntry where
  | file (bytes : List UInt8)
  | directory
  deriving DecidableEq

/-- The parts of an absolute path in which nothing is left to normalise. -/
abbrev Place := List String

structure FileTree where
  entries : List (Place × FileEntry) := []

/-- Why a file could not be opened or read. -/
inductive FileError where
  | missing (p : String)
  | notDirectory (p : String)
  | isDirectory (p : String)
  | notText (e : Text.Utf8Error)
  deriving DecidableEq, Repr

def FileError.message : FileError → String
  | missing p => "[Errno 2] No such file or directory: " ++ Text.quote p
  | notDirectory p => "[Errno 20] Not a directory: " ++ Text.quote p
  | isDirectory p => "[Errno 21] Is a directory: " ++ Text.quote p
  | notText e => e.message

namespace FileTree

/-- What stands at a place. -/
def entry? (t : FileTree) (a : Place) : Option FileEntry :=
  match t.entries.lookup a with
  | some e => some e
  | none => if a = [] ∨ t.entries.any fun e => a.isPrefixOf e.1 then some .directory else none

def isDirectory (t : FileTree) (a : Place) : Bool := decide (t.entry? a = some .directory)

/-- Follows the parts of a path from a place on. -/
def follow (t : FileTree) (a : Place) : List String → Option Place
  | [] => some a
  | part :: rest =>
    if !t.isDirectory a then none
    else if part = "" ∨ part = "." then t.follow a rest
    else if part = ".." then t.follow a.dropLast rest
    else if (t.entry? (a ++ [part])).isSome then t.follow (a ++ [part]) rest
    else none

/-- The place that a path leads to from a working directory. The empty path leads nowhere. -/
def locate? (t : FileTree) (cwd p : String) : Option Place :=
  if p = "" then none else t.follow [] (Path.parts (Path.join cwd p))

def contains (t : FileTree) (cwd p : String) : Bool := (t.locate? cwd p).isSome

/-- The text of the file at a path, with line feeds as its only line ends. -/
def read (t : FileTree) (cwd p : String) : Except FileError (List Char) :=
  match (t.locate? cwd p).bind t.entry? with
  | none => .error (.missing p)
  | some .directory => .error (.isDirectory p)
  | some (.file bytes) =>
    match Text.decode bytes with
    | .ok cs => .ok (Text.lineFeeds cs)
    | .error e => .error (.notText e)

/-- Sets what stands at a place. -/
def put (t : FileTree) (a : Place) (e : FileEntry) : FileTree :=
  ⟨(a, e) :: t.entries.filter fun old => old.1 != a⟩

/-- Why no file can be made at the parts of a path from a place on; else where it goes. -/
def target (t : FileTree) (p : String) (a : Place) : List String → Except FileError Place
  | [] => .error (.isDirectory p)
  | part :: rest =>
    if !t.isDirectory a then .error (.notDirectory p)
    else if part = "" ∨ part = "." then t.target p a rest
    else if part = ".." then t.target p a.dropLast rest
    else if rest = [] then
      if t.isDirectory (a ++ [part]) then .error (.isDirectory p) else .ok (a ++ [part])
    else if rest.all (· == "") then .error (.isDirectory p)
    else if (t.entry? (a ++ [part])).isSome then t.target p (a ++ [part]) rest
    else .error (.missing p)

/-- Writes a text to the file at a path, which is made if it is not there. -/
def write (t : FileTree) (cwd p text : String) : Except FileError FileTree :=
  if p = "" then .error (.missing p)
  else do
    let a ← t.target p [] (Path.parts (Path.join cwd p))
    return t.put a (.file text.toUTF8.toList)

end FileTree

end WordC
