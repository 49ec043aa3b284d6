import WordC.Stmt.Parse
import WordC.Token.Scan

/-!
# From text to trees

Reading a piece of source text: the scanner's tokens handed to one of the readers. A text of
statements can also be worked off one statement at a time, so that the first of them take effect
even when a later one cannot be read.
-/

namespace WordC

/-- Why working on a text stopped: it could not be scanned or read, or the work on it failed. -/
inductive TextError (ε : Type) where
  | scan (e : ScanError)
  | parse (e : ParseError)
  | work (e : ε)

/-- Reads a text with a reader; tokens behind what it reads are left over. -/
def readText {ε α : Type} (p : Parse α) (text : String) : Except (TextError ε) α :=
  match scan text with
  | .error e => .error (.scan e)
  | .ok ts =>
    match (p.runOn ts).1 with
    | .ok a => .ok a
    | .error e => .error (.parse e)

/-- Reads and works off statements until the input ends. -/
def eachStatement {σ ε : Type} (work : Stmt → ExceptT ε (StateM σ) Unit) :
    (fuel : Nat) → Cursor → ExceptT (TextError ε) (StateM σ) Unit
  | 0, _ => return ()
  | fuel + 1, c =>
    if c.current?.map Token.kind = some .endOfInput ∨ c.current?.isNone then return ()
    else
      match (ExceptT.run Parse.stmt).run c with
      | (.error e, _) => throw (.parse e)
      | (.ok s, c) => do
        ExceptT.adapt TextError.work (work s)
        eachStatement work fuel c

/-- Works off the statements of a text. -/
def eachStatementOf {σ ε : Type} (work : Stmt → ExceptT ε (StateM σ) Unit) (text : String) :
    ExceptT (TextError ε) (StateM σ) Unit :=
  match scan text with
  | .error e => throw (.scan e)
  | .ok ts => eachStatement work ts.length (Cursor.ofTokens ts)

/-- The program of a text. -/
def Program.ofText {ε : Type} (text : String) : Except (TextError ε) Program :=
  readText Parse.program text

end WordC
