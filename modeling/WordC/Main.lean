import WordC.Command.Compile

/-!
# The command line

`run` and `compile` work on a copy of the files below the working directory; what a command has
changed in it is written back when it has ended. Other programs are not started from here.
-/

namespace WordC.CommandLine

/-- A bound that no run is expected to meet. -/
def fuel : Nat := 1000000000000000000

/-- The files below a directory. -/
partial def entriesBelow (dir : String) : IO (List (Place × FileEntry)) := do
  let mut found : List (Place × FileEntry) := [(Path.normalParts dir, .directory)]
  for entry in ← (← IO.FS.realPath dir).readDir do
    let path := entry.path.toString
    if ← entry.path.isDir then
      found := (← entriesBelow path) ++ found
    else
      let bytes ← IO.FS.readBinFile path
      found := (Path.normalParts path, .file bytes.toList) :: found
  return found

/-- Writes the files that are new or changed. -/
def writeBack (old new : FileTree) : IO Unit :=
  for (place, entry) in new.entries do
    if let .file bytes := entry then
      if old.entries.lookup place ≠ some entry then
        IO.FS.writeBinFile ("/" ++ "/".intercalate place) (ByteArray.mk bytes.toArray)

/-- Runs a command in the working directory and gives its exit code. -/
def perform (command : Command Unit) : IO UInt32 := do
  let cwd := (← IO.currentDir).toString
  let tree : FileTree := ⟨← entriesBelow cwd⟩
  let (result, world) := (ExceptT.run command).run { tree := tree, cwd := cwd, project := cwd }
  writeBack tree world.tree
  IO.print world.out
  IO.eprint world.err
  match Command.exitCode result with
  | .ok code => return (code % 256).toNat.toUInt32
  | .error stop =>
    IO.eprintln stop.message
    return 1

end WordC.CommandLine

open WordC in
def main (args : List String) : IO UInt32 :=
  match args with
  | "run" :: rest => CommandLine.perform (Command.runFile CommandLine.fuel rest)
  | "compile" :: rest => CommandLine.perform (Command.compileFile CommandLine.fuel rest)
  | _ => do
    IO.eprintln "usage: wordc (run | compile) ARGUMENTS"
    return 1
