import WordC.Token.Basic

/-!
# The token cursor

A list of tokens with a place in it: the tokens passed, the last one first, and the tokens ahead.
Reading happens at the place and moves it forward by one; past the last token the cursor stays where
it is and goes on to give that token.

Reading can fail in many ways, and an answer shows how far the reader had come, so a failing step
keeps its cursor.
-/

namespace WordC

structure Cursor where
  passed : List Token := []
  ahead : List Token
  deriving DecidableEq, Repr

namespace Cursor

def ofTokens (ts : List Token) : Cursor := ⟨[], ts⟩

def tokens (c : Cursor) : List Token := c.passed.reverse ++ c.ahead

/-- The number of tokens passed. -/
def position (c : Cursor) : Nat := c.passed.length

def current? (c : Cursor) : Option Token := c.ahead.head?

/-- The token behind the current one. -/
def next? (c : Cursor) : Option Token := c.ahead[1]?

/-- The cursor behind the current token. -/
def forward (c : Cursor) : Cursor :=
  match c.ahead with
  | [] => c
  | t :: ts => ⟨t :: c.passed, ts⟩

end Cursor

/-! ### What can go wrong -/

/-- The part of a program that is being read. -/
inductive Reading where
  | program | statement | assignment | expression
  deriving DecidableEq, Repr

inductive ParseError where
  /-- Some other kind was needed; `label` replaces the default wording. -/
  | expected (kind : Kind) (label : Option String) (found : Option Token)
  | unexpectedToken (reading : Reading) (found : Token)
  | unexpectedEnd (reading : Reading)
  | expectedType (found : Token)
  | expectedTarget (line : Nat)
  | registerRange (number line : Nat)
  | registerNumber (name : String) (line : Nat)
  | registerName (name : String) (line : Nat)
  | interruptParams (name : String) (line : Nat)
  | indexOfNonName (line : Option Nat)
  | badLiteral (found : Token)
  | noMain
  /-- A token was needed and the list had none left. -/
  | noToken
  /-- A place outside the list was asked for. -/
  | outOfRange
  /-- The bound on the reader's depth was reached. -/
  | tooDeep
  deriving DecidableEq, Repr

namespace ParseError

def placeText : Option Nat → String
  | some n => toString n
  | none => "?"

def readingText : Reading → String
  | .program => ""
  | .statement => " in statement"
  | .assignment => " in assignment"
  | .expression => " in expression"

def message : ParseError → String
  | expected kind label found =>
    let got := match found with
      | some t => t.kind.name
      | none => "EOF"
    let text := match label with
      | some l => if l.isEmpty then "Expected " ++ kind.name ++ ", got " ++ got else l
      | none => "Expected " ++ kind.name ++ ", got " ++ got
    text ++ " at line " ++ placeText (found.map Token.line) ++ ", column " ++
      placeText (found.map Token.column)
  | unexpectedToken reading t =>
    "Unexpected token" ++ readingText reading ++ ": " ++ t.describe ++
      " at line " ++ toString t.line
  | unexpectedEnd .assignment => "Unexpected end of file in assignment"
  | unexpectedEnd .expression => "Unexpected end of file in expression"
  | unexpectedEnd _ => "Unexpected end of file"
  | expectedType t =>
    "Expected uint32 or int32, got " ++ t.describe ++ " at line " ++ toString t.line
  | expectedTarget line => "Expected identifier or * in assignment at line " ++ toString line
  | registerRange n line =>
    "Register number must be 0-31, got " ++ toString n ++ " at line " ++ toString line
  | registerNumber name line => "Invalid register name: " ++ name ++ " at line " ++ toString line
  | registerName name line =>
    "Register variables must be named r0-r31, got " ++ name ++ " at line " ++ toString line
  | interruptParams name line =>
    "Interrupt function '" ++ name ++ "' cannot have parameters at line " ++ toString line
  | indexOfNonName line => "Array access on non-identifier expression at line " ++ placeText line
  | badLiteral t =>
    "Invalid numeric literal: " ++ t.text ++ " at line " ++ toString t.line ++ ", column " ++
      toString t.column
  | noMain => "Program must have a 'main' function"
  | noToken => "'NoneType' object has no attribute 'type'"
  | outOfRange => "list index out of range"
  | tooDeep => "too deep"

end ParseError

/-! ### Reading steps -/

/-- A reading step: it moves the cursor and gives a value or an error. -/
abbrev Parse (α : Type) := ExceptT ParseError (StateM Cursor) α

namespace Parse

def current? : Parse (Option Token) := do return (← get).current?

def next? : Parse (Option Token) := do return (← get).next?

/-- The kind of the current token. -/
def kind? : Parse (Option Kind) := do return (← current?).map Token.kind

/-- Passes the current token and gives it; at the end gives the last token again. -/
def advance : Parse Token := do
  let c ← get
  match c.ahead, c.passed with
  | t :: _, _ => do set c.forward; return t
  | [], t :: _ => return t
  | [], [] => throw .outOfRange

/-- Passes a token of the given kind. -/
def expect (kind : Kind) (label : Option String := none) : Parse Token := do
  match (← current?) with
  | some t => if t.kind = kind then advance else throw (.expected kind label (some t))
  | none => throw (.expected kind label none)

/-- The token `offset` places from the current one. A place before the first token counts from the
end. -/
def peek (offset : Int) : Parse (Option Token) := do
  let c ← get
  let ts := c.tokens
  let place : Int := c.position + offset
  if (ts.length : Int) ≤ place then return none
  let place := if place < 0 then place + ts.length else place
  if place < 0 then throw .outOfRange
  return ts[place.toNat]?

/-- Passes the current token if it is of the given kind. -/
def accept (kind : Kind) : Parse Bool := do
  if (← kind?) = some kind then
    let _ ← advance
    return true
  else
    return false

def symbol (s : Symbol) : Parse Unit := do let _ ← expect (.symbol s)

def keyword (k : Keyword) : Parse Unit := do let _ ← expect (.keyword k)

/-- Passes a name and gives its text. -/
def identifier (label : String) : Parse String := do return (← expect .identifier (some label)).text

/-- Further items, each behind a comma. `done` holds the items so far, the last one first. -/
def moreItems {α : Type} (item : Parse α) : (fuel : Nat) → (done : List α) → Parse (List α)
  | 0, _ => throw .tooDeep
  | fuel + 1, done => do
    if (← accept (.symbol .comma)) then
      moreItems item fuel ((← item) :: done)
    else
      return done.reverse

/-- Items between commas up to a closing symbol, which is passed. -/
def itemsUntil {α : Type} (fuel : Nat) (item : Parse α) (closing : Symbol) : Parse (List α) := do
  let items ← match (← kind?) with
    | some k => if k = .symbol closing then pure [] else moreItems item fuel [← item]
    | none => pure []
  symbol closing
  return items

end Parse

end WordC
