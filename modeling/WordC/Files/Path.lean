/-!
# Paths

A path is text whose parts are divided by slashes; it is absolute when it starts with one.
Normalising works on the text alone: empty parts and single dots go, a double dot takes the part in
front of it away. Two leading slashes, but not three, stay two.
-/

namespace WordC.Path

def parts (p : String) : List String := (p.toList.splitOn '/').map String.ofList

def isAbsolute (p : String) : Bool := p.toList.head? == some '/'

/-- Puts a path below a directory. An absolute path stays as it is. -/
def join (dir p : String) : String :=
  if isAbsolute p then p
  else if dir.toList.getLast?.all (· == '/') then dir ++ p
  else dir ++ "/" ++ p

/-- How many slashes a normalised path starts with. -/
def rootSlashes (p : String) : Nat :=
  match p.toList with
  | '/' :: '/' :: '/' :: _ => 1
  | '/' :: '/' :: _ => 2
  | '/' :: _ => 1
  | _ => 0

/-- Takes one more part to a normalised path, whose parts stand last part first. -/
def pushPart (rooted : Bool) (stack : List String) (part : String) : List String :=
  if part = "" ∨ part = "." then stack
  else if part ≠ ".." then part :: stack
  else
    match stack with
    | [] => if rooted then [] else [part]
    | top :: rest => if top = ".." then part :: stack else rest

/-- The parts of a path that are left when it is normalised. -/
def normalParts (p : String) : List String :=
  ((parts p).foldl (pushPart (decide (rootSlashes p ≠ 0))) []).reverse

def slashes (n : Nat) : String := String.ofList (List.replicate n '/')

def normalize (p : String) : String :=
  let q := slashes (rootSlashes p) ++ "/".intercalate (normalParts p)
  if q = "" then "." else q

/-- The normalised absolute path of a path that is meant from a working directory. -/
def absolute (cwd p : String) : String := normalize (join cwd p)

/-! ### The two halves of a path -/

/-- What stands up to the last slash, and what stands behind it. -/
def splitLast (p : String) : List Char × List Char :=
  let back := p.toList.reverse
  ((back.dropWhile (· != '/')).reverse, (back.takeWhile (· != '/')).reverse)

/-- The directory of a path, without the slashes at its end unless it is nothing else. -/
def directory (p : String) : String :=
  let head := (splitLast p).1
  if head.all (· == '/') then String.ofList head
  else String.ofList (head.reverse.dropWhile (· == '/')).reverse

def fileName (p : String) : String := String.ofList (splitLast p).2

/-- A path without the extension of its last part. Dots that the last part starts with are not of an
extension. -/
def withoutExtension (p : String) : String :=
  let (head, name) := splitLast p
  let stem := (name.reverse.dropWhile (· != '.')).drop 1
  if stem.all (· == '.') then p else String.ofList (head ++ stem.reverse)

/-! ### Relative paths -/

/-- Drops what two lists start with in common. -/
def dropCommon : List String → List String → List String × List String
  | a :: as, b :: bs => if a = b then dropCommon as bs else (a :: as, b :: bs)
  | as, bs => (as, bs)

/-- The way from a directory to a path, both normalised and absolute. -/
def relative (dir p : String) : String :=
  let (up, down) := dropCommon (normalParts dir) (normalParts p)
  let way := List.replicate up.length ".." ++ down
  if way.isEmpty then "." else "/".intercalate way

end WordC.Path
