import WordC.Device
import WordC.Scope.Chain
import WordC.Stmt.Basic

/-!
# The state of a run

A run has a chain of open scopes, thirty-two registers, the names that are bound to registers, the
devices, and a note of whether it has warned of assembly it cannot run. A step of a run changes the
state and ends in a value or in a signal: a failure, a jump out of a loop or a function, or the end
of the bound on its length. The state is kept either way.
-/

namespace WordC

inductive RunError where
  | scope (e : ScopeError)
  | device (e : DeviceError)
  | divisionByZero
  | moduloByZero
  | unknownUnary (op : String)
  | unknownBinary (op : String)
  | unknownExpression
  | unknownStatement
  | undefinedFunction (name : String)
  | arity (name : String) (needed got : Nat)
  | noMain
  | mainParams
  | arraySizeForm (form : String)
  | tooManyValues (array : String) (got size : Nat)
  | readOnlyRegister
  | addressOfForm (form : String)
  /-- A list of values where a single one is declared. -/
  | valueList
  /-- A register was asked of a declaration that has none. -/
  | noRegister (form : String)
  /-- A call was asked of an expression that is none. -/
  | notCall (form : String)
  deriving DecidableEq, Repr

namespace RunError

def nodeText (form : String) : String := "<class 'parser." ++ form ++ "'>"

def message : RunError → String
  | scope e => e.message
  | device e => e.message
  | divisionByZero => "Division by zero"
  | moduloByZero => "Modulo by zero"
  | unknownUnary op => "Unknown unary operator: " ++ op
  | unknownBinary op => "Unknown binary operator: " ++ op
  | unknownExpression => "Unknown expression type: " ++ nodeText "Expression"
  | unknownStatement => "Unknown statement type: " ++ nodeText "Statement"
  | undefinedFunction name => "Undefined function: " ++ name
  | arity name needed got =>
    "Function '" ++ name ++ "' expects " ++ toString needed ++ " arguments, got " ++ toString got
  | noMain => "Program must have a 'main' function"
  | mainParams => "'main' function must take no parameters"
  | arraySizeForm form => "Array size must be a constant literal, got " ++ nodeText form
  | tooManyValues a got size =>
    "Too many initializers for array " ++ a ++ ": got " ++ toString got ++
      ", expected at most " ++ toString size
  | readOnlyRegister => "Cannot write to register r31 (instruction pointer)"
  | addressOfForm form => "Cannot take address of " ++ nodeText form
  | valueList => "Unknown expression type: <class 'list'>"
  | noRegister form => "'" ++ form ++ "' object has no attribute 'register_num'"
  | notCall form => "'" ++ form ++ "' object has no attribute 'name'"

/-- Whether a failure is one of the language; the others come from trees that no rule is made for.
-/
def isForeseen : RunError → Bool
  | noRegister _ | notCall _ => false
  | _ => true

end RunError

/-- How a step can end other than with a value. -/
inductive Signal where
  | failure (e : RunError)
  | breakLoop
  | continueLoop
  | returned (value : Int)
  | outOfFuel
  deriving DecidableEq, Repr

structure Machine where
  /-- The open scopes, the innermost first; the last one is the global scope. -/
  scopes : Chain IntType := [{}]
  registers : Vector Int 32 := Vector.replicate 32 0
  registerNames : Table (Fin 32) := {}
  devices : Devices := {}
  asmWarned : Bool := false

/-- A step of a run. -/
abbrev Run (α : Type) := ExceptT Signal (StateM Machine) α

namespace Run

def fail {α : Type} (e : RunError) : Run α := throw (.failure e)

def ofScope {α : Type} : Except ScopeError α → Run α
  | .ok a => return a
  | .error e => fail (.scope e)

/-- Reads from the open scopes. -/
def reading {α : Type} (f : Chain IntType → Except ScopeError α) : Run α := do
  ofScope (f (← get).scopes)

/-- Changes the open scopes. -/
def changing (f : Chain IntType → Except ScopeError (Chain IntType)) : Run Unit := do
  let scopes ← ofScope (f (← get).scopes)
  modify fun m => { m with scopes }

/-- Declares a variable in the innermost scope. -/
def declare (x : String) (v : Int) (t : IntType) : Run Unit :=
  modify fun m => { m with scopes :=
    match m.scopes with
    | s :: rest => s.declare x v t :: rest
    | [] => [] }

/-- Runs a step inside a scope of its own, which is closed however the step ends. -/
def inside {α : Type} (s : Scope IntType) (step : Run α) : Run α := fun m =>
  let (result, m) := step { m with scopes := s :: m.scopes }
  (result, { m with scopes := m.scopes.tail })

/-- Runs the body of a loop: whether the loop goes on. -/
def attempt (body : Run Unit) : Run Bool := fun m =>
  match body m with
  | (.ok (), m) => (.ok true, m)
  | (.error .continueLoop, m) => (.ok true, m)
  | (.error .breakLoop, m) => (.ok false, m)
  | (.error signal, m) => (.error signal, m)

/-- Repeats a step as long as it answers yes. -/
def iterate (round : Run Bool) : (fuel : Nat) → Run Unit
  | 0 => throw .outOfFuel
  | fuel + 1 => do
    if (← round) then iterate round fuel else return ()

end Run

end WordC
