import WordC.Expr.Parse
import WordC.Stmt.Basic

/-!
# Reading statements, functions and programs

The kind of the current token decides which statement follows; only behind a name the next token is
looked at as well. As with expressions, each statement is given the reader of the statements inside
it.
-/

namespace WordC

namespace Parse

/-! ### Declarations -/

/-- The words in front of a declared type. -/
def qualifiers : (fuel : Nat) → (register volatile : Bool) → Parse (Bool × Bool)
  | 0, _, _ => throw .tooDeep
  | fuel + 1, register, volatile => do
    match (← kind?) with
    | some (.keyword .register) => do let _ ← advance; qualifiers fuel true volatile
    | some (.keyword .volatile) => do let _ ← advance; qualifiers fuel register true
    | _ => return (register, volatile)

def declaredType : Parse IntType := do
  match (← current?) with
  | none => throw .noToken
  | some t =>
    match t.kind with
    | .keyword .uint32 => do let _ ← advance; return .uint32
    | .keyword .int32 => do let _ ← advance; return .int32
    | _ => throw (.expectedType t)

/-- The register that a variable's name stands for. -/
def registerOf (name : String) (line : Nat) : Parse (Fin 32) :=
  match name.toList with
  | 'r' :: c :: cs =>
    match Text.numeral? (String.ofList (c :: cs)) with
    | some n => if h : n < 32 then return ⟨n, h⟩ else throw (.registerRange n line)
    | none => throw (.registerNumber name line)
  | _ => throw (.registerName name line)

/-- An optional initial value. -/
def initial (fuel : Nat) : Parse (Option Expr) := do
  if (← accept (.symbol .assign)) then
    return some (← exprAt fuel)
  else
    return none

def arrayDecl (fuel : Nat) (name : String) (register volatile : Bool) : Parse ArrayDecl := do
  let size ← exprAt fuel
  symbol .rightBracket
  let init ← if (← accept (.symbol .assign)) then do
      symbol .leftBrace
      some <$> itemsUntil fuel (exprAt fuel) .rightBrace
    else pure none
  symbol .semicolon
  return { name, size, init, register, volatile }

def pointerDecl (fuel : Nat) (name : String) (register volatile : Bool) : Parse PointerDecl := do
  let init ← initial fuel
  symbol .semicolon
  return { name, init, register, volatile }

def varDecl (fuel : Nat) (name : Token) (type : IntType) (register volatile : Bool) :
    Parse VarDecl := do
  let number ← if register then some <$> registerOf name.text name.line else pure none
  let init ← initial fuel
  symbol .semicolon
  return { name := name.text, init, type, register := number, volatile }

/-- A declaration. An array keeps neither its type nor that it was one of pointers. -/
def declAt (fuel : Nat) : Parse Decl := do
  let (register, volatile) ← qualifiers fuel false false
  let type ← declaredType
  let pointer ← accept (.symbol .star)
  let name ← expect .identifier (some "Expected variable name")
  if (← accept (.symbol .leftBracket)) then
    return .array (← arrayDecl fuel name.text register volatile)
  else if pointer then
    return .pointer (← pointerDecl fuel name.text register volatile)
  else
    return .var (← varDecl fuel name type register volatile)

/-! ### Simple statements -/

/-- The value of an assignment with its signs around it. -/
def assigned (fuel : Nat) : Parse Expr := do
  symbol .assign
  let value ← exprAt fuel
  symbol .semicolon
  return value

def assignmentAt (fuel : Nat) : Parse Stmt := do
  match (← current?) with
  | none => throw (.unexpectedEnd .assignment)
  | some t =>
    match t.kind with
    | .symbol .star =>
      let _ ← advance
      let pointer ← exprAt fuel
      return .assignDeref pointer (← assigned fuel)
    | .identifier =>
      let _ ← advance
      if (← accept (.symbol .leftBracket)) then
        let position ← exprAt fuel
        symbol .rightBracket
        return .assignIndex t.text position (← assigned fuel)
      else
        return .assign t.text (← assigned fuel)
    | _ => throw (.expectedTarget t.line)

/-- A statement that starts with the name `t`, if its next token shows one. -/
def namedStatement (fuel : Nat) (t : Token) : Parse Stmt := do
  match (← next?).map Token.kind with
  | some (.symbol .leftParen) =>
    let e ← exprAt fuel
    symbol .semicolon
    return .call e
  | some (.symbol .leftBracket) => assignmentAt fuel
  | some (.symbol .assign) => assignmentAt fuel
  | some (.symbol .plusPlus) =>
    let _ ← advance
    let _ ← advance
    symbol .semicolon
    return .increment t.text false
  | some (.symbol .minusMinus) =>
    let _ ← advance
    let _ ← advance
    symbol .semicolon
    return .decrement t.text false
  | _ => throw (.unexpectedToken .statement t)

def returnStatement (fuel : Nat) : Parse Stmt := do
  let _ ← advance
  let value ← match (← kind?) with
    | some k => if k = .symbol .semicolon then pure none else some <$> exprAt fuel
    | none => pure none
  symbol .semicolon
  return .ret value

def asmStatement : Parse Stmt := do
  let _ ← advance
  let t ← expect .asmBlock (some "Expected asm block content")
  symbol .semicolon
  return .asm t.text

/-! ### Loops and branches -/

/-- A condition between parentheses. -/
def condition (fuel : Nat) : Parse Expr := do
  symbol .leftParen
  let e ← exprAt fuel
  symbol .rightParen
  return e

def ifStatement (fuel : Nat) (stmt : Parse Stmt) : Parse Stmt := do
  let _ ← advance
  let c ← condition fuel
  let body ← stmt
  if (← accept (.keyword .elseKw)) then
    return .ifElse c body (← stmt)
  else
    return .ifThen c body

def whileStatement (fuel : Nat) (stmt : Parse Stmt) : Parse Stmt := do
  let _ ← advance
  let c ← condition fuel
  return .whileLoop c (← stmt)

def doStatement (fuel : Nat) (stmt : Parse Stmt) : Parse Stmt := do
  let _ ← advance
  let body ← stmt
  keyword .whileKw
  let c ← condition fuel
  symbol .semicolon
  return .doWhile body c

def forVariable (fuel : Nat) (type : IntType) : Parse ForInit := do
  let _ ← advance
  let name ← identifier "Expected variable name"
  return .declare { name, init := ← initial fuel, type }

/-- The first part of a loop head; whatever it is not, it leaves for the semicolon to refuse. -/
def forInit (fuel : Nat) : Parse (Option ForInit) := do
  match (← current?) with
  | none => return none
  | some t =>
    match t.kind with
    | .keyword .uint32 => some <$> forVariable fuel .uint32
    | .keyword .int32 => some <$> forVariable fuel .int32
    | .identifier =>
      if (← next?).map Token.kind = some (.symbol .assign) then
        let _ ← advance
        let _ ← advance
        return some (.assign t.text (← exprAt fuel))
      else
        return none
    | _ => return none

def forCondition (fuel : Nat) : Parse (Option Expr) := do
  match (← kind?) with
  | none => return none
  | some k => if k = .symbol .semicolon then return none else some <$> exprAt fuel

/-- The last part of a loop head. A name with nothing done to it is passed and gives no step. -/
def forStep (fuel : Nat) : Parse (Option ForStep) := do
  match (← current?) with
  | none => return none
  | some t =>
    match t.kind with
    | .symbol .plusPlus =>
      let _ ← advance
      return some (.increment (← identifier "Expected variable name after ++") true)
    | .symbol .minusMinus =>
      let _ ← advance
      return some (.decrement (← identifier "Expected variable name after --") true)
    | .identifier =>
      let _ ← advance
      if (← accept (.symbol .plusPlus)) then
        return some (.increment t.text false)
      else if (← accept (.symbol .minusMinus)) then
        return some (.decrement t.text false)
      else if (← accept (.symbol .assign)) then
        return some (.assign t.text (← exprAt fuel))
      else
        return none
    | _ => return none

def forStatement (fuel : Nat) (stmt : Parse Stmt) : Parse Stmt := do
  let _ ← advance
  symbol .leftParen
  let init ← forInit fuel
  symbol .semicolon
  let c ← forCondition fuel
  symbol .semicolon
  let step ← forStep fuel
  symbol .rightParen
  return .forLoop init c step (← stmt)

/-! ### Blocks and statements -/

/-- Statements up to a closing brace or the end of the tokens. -/
def statements (stmt : Parse Stmt) : (fuel : Nat) → (done : List Stmt) → Parse (List Stmt)
  | 0, _ => throw .tooDeep
  | fuel + 1, done => do
    match (← kind?) with
    | none => return done.reverse
    | some k =>
      if k = .symbol .rightBrace then return done.reverse
      else statements stmt fuel ((← stmt) :: done)

def blockWith (fuel : Nat) (stmt : Parse Stmt) : Parse (List Stmt) := do
  symbol .leftBrace
  let body ← statements stmt fuel []
  symbol .rightBrace
  return body

/-- A statement, given the reader of the statements inside it. -/
def stmtWith (fuel : Nat) (stmt : Parse Stmt) : Parse Stmt := do
  match (← current?) with
  | none => throw (.unexpectedEnd .statement)
  | some t =>
    match t.kind with
    | .keyword .uint32 | .keyword .int32 | .keyword .register | .keyword .volatile =>
      .decl <$> declAt fuel
    | .symbol .plusPlus =>
      let _ ← advance
      let x ← identifier "Expected variable name after ++"
      symbol .semicolon
      return .increment x true
    | .symbol .minusMinus =>
      let _ ← advance
      let x ← identifier "Expected variable name after --"
      symbol .semicolon
      return .decrement x true
    | .keyword .returnKw => returnStatement fuel
    | .keyword .ifKw => ifStatement fuel stmt
    | .keyword .doKw => doStatement fuel stmt
    | .keyword .whileKw => whileStatement fuel stmt
    | .keyword .forKw => forStatement fuel stmt
    | .keyword .breakKw => do let _ ← advance; symbol .semicolon; return .breakLoop
    | .keyword .continueKw => do let _ ← advance; symbol .semicolon; return .continueLoop
    | .keyword .asm => asmStatement
    | .symbol .leftBrace => .block <$> blockWith fuel stmt
    | .identifier => namedStatement fuel t
    | .symbol .star =>
      if (← next?).isSome then assignmentAt fuel else throw (.unexpectedToken .statement t)
    | _ => throw (.unexpectedToken .statement t)

/-- A statement in which at most `fuel` others are nested. -/
def stmtAt : (fuel : Nat) → Parse Stmt
  | 0 => throw .tooDeep
  | fuel + 1 => stmtWith (fuel + 1) (stmtAt fuel)

def blockAt (fuel : Nat) : Parse (List Stmt) := blockWith fuel (stmtAt fuel)

/-! ### Functions and programs -/

/-- A parameter: a name, which may stand behind a type. -/
def parameter : Parse String := do
  if (← accept (.keyword .uint32)) then
    let _ ← accept (.symbol .star)
  identifier "Expected parameter name"

/-- A parameter behind a comma, where a token has to be. -/
def nextParameter : Parse String := do
  match (← current?) with
  | none => throw .noToken
  | some _ => parameter

def moreParameters : (fuel : Nat) → (done : List String) → Parse (List String)
  | 0, _ => throw .tooDeep
  | fuel + 1, done => do
    if (← accept (.symbol .comma)) then
      moreParameters fuel ((← nextParameter) :: done)
    else
      return done.reverse

def parameters (fuel : Nat) : Parse (List String) := do
  match (← kind?) with
  | none => return []
  | some k => if k = .symbol .rightParen then return [] else moreParameters fuel [← parameter]

def functionAt (fuel : Nat) : Parse Func := do
  let interrupt ← accept (.keyword .interrupt)
  keyword .function
  let name ← expect .identifier (some "Expected function name")
  symbol .leftParen
  let params ← parameters fuel
  symbol .rightParen
  if interrupt ∧ params ≠ [] then throw (.interruptParams name.text name.line)
  let body ← blockAt fuel
  return { name := name.text, params, body, interrupt }

/-- A part of a program. -/
inductive Item where
  | function (f : Func)
  | global (d : Decl)

def itemAt (fuel : Nat) (t : Token) : Parse Item := do
  match t.kind with
  | .keyword .function => .function <$> functionAt fuel
  | .keyword .interrupt =>
    if (← next?).map Token.kind = some (.keyword .function) then .function <$> functionAt fuel
    else throw (.unexpectedToken .program t)
  | .keyword .uint32 | .keyword .int32 | .keyword .register | .keyword .volatile =>
    .global <$> declAt fuel
  | _ => throw (.unexpectedToken .program t)

/-- The parts of a program, up to the token that ends the input or the end of the list. -/
def items (inner : Nat) : (fuel : Nat) → (functions : List Func) →
    (globals : List Decl) → Parse Program
  | 0, _, _ => throw .tooDeep
  | fuel + 1, functions, globals => do
    match (← current?) with
    | none => return ⟨functions.reverse, globals.reverse⟩
    | some t =>
      if t.kind = .endOfInput then return ⟨functions.reverse, globals.reverse⟩
      match (← itemAt inner t) with
      | .function f => items inner fuel (f :: functions) globals
      | .global d => items inner fuel functions (d :: globals)

def programAt (fuel : Nat) : Parse Program := do
  let p ← items fuel fuel [] []
  if p.hasMain then return p else throw .noMain

def stmt : Parse Stmt := do stmtAt (← bound)

def decl : Parse Decl := do declAt (← bound)

def assignment : Parse Stmt := do assignmentAt (← bound)

def block : Parse (List Stmt) := do blockAt (← bound)

def function : Parse Func := do functionAt (← bound)

def program : Parse Program := do programAt (← bound)

end Parse

/-- Runs a reading step on a list of tokens: its value or error, and the cursor where it stopped. -/
def Parse.runOn {α : Type} (p : Parse α) (ts : List Token) : Except ParseError α × Cursor :=
  (ExceptT.run p).run (Cursor.ofTokens ts)

def Program.ofTokens (ts : List Token) : Except ParseError Program := (Parse.program.runOn ts).1

end WordC
