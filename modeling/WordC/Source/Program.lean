import WordC.Source.Include
import WordC.Stmt.Text

/-!
# From files to programs

A program is gathered from its main file, scanned and read. A character that the scanner does not
know stops it before anything is read.
-/

namespace WordC

inductive BuildError where
  | missing (path : String)
  | source (e : SourceError)
  | badToken (text : String)
  | scan (e : ScanError)
  | parse (e : ParseError)

def BuildError.message : BuildError → String
  | missing p => "File '" ++ p ++ "' not found."
  | source e => e.message
  | badToken text => "Lexer error: " ++ text
  | scan e => e.message
  | parse e => e.message

/-- The text that a main file is gathered to. -/
def Files.gather (w : Files) (rounds : Nat) (p : String) : Except SourceError String :=
  ((ExceptT.run (Gather.mainFile w rounds p)).run { base := w.cwd }).1.map joinLines

/-- The program of a main file. -/
def Files.program (w : Files) (rounds : Nat) (p : String) : Except BuildError Program := do
  if !w.contains p then throw (.missing p)
  let text ← (w.gather rounds p).mapError .source
  let tokens ← (scan text).mapError .scan
  if let some bad := tokens.find? fun t => t.kind == .error then throw (.badToken bad.text)
  ((Parse.program.runOn tokens).1).mapError .parse

end WordC
