import WordC.Compile.Registers
import WordC.Expr.Basic
import WordC.Text.Quoted

/-!
# The state of the compiler

The compiler writes code and data lines side by side and keeps where everything lives: the registers
of the variables, the labels of functions, globals and arrays, the stack offsets that addresses of
locals are made from, and the loops that are open. A step that fails keeps what it has written.
-/

namespace WordC

open Asm

/-- Where an array lives. A bare number is no place that code can be made for. -/
inductive ArrayPlace where
  | label (l : Label)
  | number (n : Int)
  deriving DecidableEq, Repr

/-- What the address of a variable is made from. -/
inductive VarPlace where
  | label (l : Label)
  | slot (offset : Nat)
  deriving DecidableEq, Repr

/-- Where to go on from inside a loop. -/
structure LoopLabels where
  next : Label
  exit : Label
  deriving DecidableEq, Repr

structure Compiler where
  pool : RegPool := {}
  labelCount : Nat := 0
  code : Array Line := #[]
  data : Array Line := #[]
  functions : Table Label := {}
  /-- The function being compiled; outside of functions declarations are global. -/
  current : Option String := none
  returned : Bool := false
  loops : List LoopLabels := []
  arrays : Table ArrayPlace := {}
  sizes : Table Nat := {}
  varPlaces : Table VarPlace := {}
  stackOffset : Nat := 0
  globals : Table Label := {}

inductive CompileError where
  | unknownStatement (function : Option String)
  | unknownExpression (function : Option String)
  | unknownUnary (op : String) (function : Option String)
  | unknownBinary (op : String) (function : Option String)
  | unknownDevice (name : String) (function : Option String)
  | undefinedVariable (x : String) (function : Option String)
  | undefinedCounter (x : String)
  | registerNumber (x : String)
  | arity (name : String) (needed got : Nat)
  | writeArity (got : Nat)
  | breakOutside
  | continueOutside
  | arraySizeForm (form : String)
  | arraySize (size : Nat)
  | noArray (a : String)
  | noAddress (x : String)
  | addressOfForm (form : String) (function : Option String)
  /-- An array without a label was indexed. -/
  | indexPlace (a : String)
  /-- An array without a label was asked for its address or stored to. -/
  | arrayPlace (a : String) (function : Option String)
  | outOfRegisters
  /-- The digits of a register's name are no number. -/
  | notNumeral (digits : List Char)
  /-- A call was asked of an expression that is none. -/
  | notCall (form : String)
  deriving DecidableEq, Repr

namespace CompileError

def inFunction : Option String → String
  | some f => " in function '" ++ f ++ "'"
  | none => " in function 'None'"

def message : CompileError → String
  | unknownStatement f =>
    "Code generation error: Unknown statement type 'Statement'" ++ inFunction f
  | unknownExpression f =>
    "Code generation error: Unknown expression type 'Expression'" ++ inFunction f
  | unknownUnary op f =>
    "Code generation error: Unknown unary operator '" ++ op ++ "'" ++ inFunction f
  | unknownBinary op f =>
    "Code generation error: Unknown binary operator '" ++ op ++ "'" ++ inFunction f
  | unknownDevice name f =>
    "Code generation error: Unknown hardware function '" ++ name ++ "'" ++ inFunction f
  | undefinedVariable x f =>
    "Code generation error: Undefined variable '" ++ x ++ "'" ++ inFunction f
  | undefinedCounter x => "Undefined variable: " ++ x
  | registerNumber x =>
    "Code generation error: Invalid register name '" ++ x ++ "' (must be r0-r31)"
  | arity name needed got =>
    name ++ " expects " ++ toString needed ++ (if needed = 1 then " argument" else " arguments") ++
      ", got " ++ toString got
  | writeArity got => "Code generation error: uart_write expects 1 argument, got " ++ toString got
  | breakOutside => "break statement outside of loop"
  | continueOutside => "continue statement outside of loop"
  | arraySizeForm form =>
    "Array size must be a constant literal, got <class 'parser." ++ form ++ "'>"
  | arraySize n => "Array size must be positive, got " ++ toString n
  | noArray a => "Array " ++ a ++ " not found"
  | noAddress x => "Variable or array " ++ x ++ " not found for address-of"
  | addressOfForm form f =>
    "Code generation error: Cannot take address of '" ++ form ++ "'" ++ inFunction f
  | indexPlace a => "Array " ++ a ++ " has invalid address type: <class 'int'>"
  | arrayPlace a f =>
    "Code generation error: Array '" ++ a ++ "' has invalid address type 'int'" ++ inFunction f
  | outOfRegisters => "'RegisterAllocator' object has no attribute 'current_function'"
  | notNumeral digits =>
    if Text.maxDecimalDigits < digits.length ∧ (digits.mapM Text.decimalValue?).isSome then
      "Exceeds the limit (" ++ toString Text.maxDecimalDigits ++
        " digits) for integer string conversion: value has " ++ toString digits.length ++
        " digits; use sys.set_int_max_str_digits() to increase the limit"
    else "invalid literal for int() with base 10: " ++ Text.quote (String.ofList digits)
  | notCall form => "'" ++ form ++ "' object has no attribute 'name'"

end CompileError

/-- A step of the compiler. -/
abbrev Compile (α : Type) := ExceptT CompileError (StateM Compiler) α

namespace Compile

/-! ### Writing lines -/

def line (l : Line) : Compile Unit := modify fun c => { c with code := c.code.push l }

def emit (i : Instr) : Compile Unit := line (.instr i)

def place (l : Label) : Compile Unit := line (.label l)

def dataLine (l : Line) : Compile Unit := modify fun c => { c with data := c.data.push l }

/-- Jumps by moving an address into the register of the next instruction. -/
def jump (l : Label) : Compile Unit := emit (.mov ip (.addr l))

def jumpIfZero (r : Reg) (l : Label) : Compile Unit := emit (.movZero ip r (.addr l))

def jumpIfNonzero (r : Reg) (l : Label) : Compile Unit := emit (.movNonzero ip r (.addr l))

/-- Moves a value between registers, unless it is there already. -/
def move (d s : Reg) : Compile Unit := if s ≠ d then emit (.mov d (.reg s)) else return ()

/-! ### Labels and registers -/

/-- The next number for a label. -/
def labelNumber : Compile Nat :=
  modifyGet fun c => (c.labelCount, { c with labelCount := c.labelCount + 1 })

def mint (stem : Stem) : Compile Label := do return .minted stem (← labelNumber)

def temp : Compile Reg := modifyGet fun c =>
  let (r, pool) := c.pool.temp
  (r, { c with pool })

/-- A temporary that is none of the given registers. At most six are ever given and nine take turns,
so ten draws do. -/
def tempAvoiding (avoid : List Reg) : Compile Reg := modifyGet fun c =>
  let (r, pool) := c.pool.tempAvoiding avoid 9
  (r, { c with pool })

def allocate (x : String) : Compile Reg := do
  let c ← get
  match c.pool.allocate? x with
  | some (r, pool) => do
    set { c with pool }
    return r
  | none => throw .outOfRegisters

/-- The register that a variable has or that its name spells. -/
def registerOf? (x : String) : Compile (Option Reg) := do
  match (← get).pool.allocated.get? x with
  | some r => return some r
  | none =>
    match registerDigits? x with
    | some digits =>
      match Text.decimalNumeral? digits with
      | some n => return some n
      | none => throw (.notNumeral digits)
    | none => return none

def currentFunction : Compile (Option String) := do return (← get).current

/-- Runs a step inside a loop, which is left however the step ends. -/
def inLoop {α : Type} (labels : LoopLabels) (step : Compile α) : Compile α := fun c =>
  let (r, c) := step { c with loops := labels :: c.loops }
  (r, { c with loops := c.loops.tail })

end Compile

end WordC
