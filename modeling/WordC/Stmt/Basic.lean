import WordC.Expr.Basic

/-!
# Statements

A variable is declared with one of the two word types, and may be bound to a machine register;
arrays and pointers keep no type. The head of a `for` has at most a declaration or an assignment in
front and at most a step behind, so these are types of their own. The body of a branch or loop is a
statement, not always a block.
-/

namespace WordC

/-- The two types of machine words. -/
inductive IntType where
  | uint32 | int32
  deriving DecidableEq, Repr

def IntType.text : IntType → String
  | uint32 => "uint32"
  | int32 => "int32"

structure VarDecl where
  name : String
  init : Option Expr := none
  type : IntType := .uint32
  register : Option (Fin 32) := none
  volatile : Bool := false

structure ArrayDecl where
  name : String
  size : Expr
  init : Option (List Expr) := none
  register : Bool := false
  volatile : Bool := false

structure PointerDecl where
  name : String
  init : Option Expr := none
  register : Bool := false
  volatile : Bool := false

inductive Decl where
  | var (d : VarDecl)
  | array (d : ArrayDecl)
  | pointer (d : PointerDecl)

def Decl.name : Decl → String
  | var d => d.name
  | array d => d.name
  | pointer d => d.name

/-- What the head of a `for` does once. -/
inductive ForInit where
  | declare (d : VarDecl)
  | assign (x : String) (value : Expr)

/-- What the head of a `for` does after each round. `before` tells where the sign stands. -/
inductive ForStep where
  | increment (x : String) (before : Bool)
  | decrement (x : String) (before : Bool)
  | assign (x : String) (value : Expr)

inductive Stmt where
  | decl (d : Decl)
  | assign (x : String) (value : Expr)
  | assignIndex (array : String) (position value : Expr)
  | assignDeref (pointer value : Expr)
  | ret (value : Option Expr)
  | ifThen (condition : Expr) (body : Stmt)
  | ifElse (condition : Expr) (body other : Stmt)
  | whileLoop (condition : Expr) (body : Stmt)
  | doWhile (body : Stmt) (condition : Expr)
  | forLoop (init : Option ForInit) (condition : Option Expr) (step : Option ForStep) (body : Stmt)
  | block (body : List Stmt)
  /-- An expression that starts with a call, run for its effects. -/
  | call (e : Expr)
  | increment (x : String) (before : Bool)
  | decrement (x : String) (before : Bool)
  | breakLoop
  | continueLoop
  | asm (text : String)
  | hole

/-- A function whose parameters are words. -/
structure Func where
  name : String
  params : List String
  body : List Stmt
  interrupt : Bool := false

structure Program where
  functions : List Func
  globals : List Decl := []

namespace ForInit

/-- The statement that a loop head's start stands for. -/
def toStmt : ForInit → Stmt
  | declare d => .decl (.var d)
  | assign x value => .assign x value

end ForInit

namespace ForStep

/-- The statement that a loop head's step stands for. -/
def toStmt : ForStep → Stmt
  | increment x before => .increment x before
  | decrement x before => .decrement x before
  | assign x value => .assign x value

end ForStep

namespace Program

/-- The last function of a name. -/
def function? (p : Program) (name : String) : Option Func :=
  p.functions.foldl (fun found f => if f.name == name then some f else found) none

def hasMain (p : Program) : Bool := p.functions.any fun f => f.name == "main"

end Program

end WordC
