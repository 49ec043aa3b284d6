import WordC.Machine.Eval

/-!
# Running statements and programs

Blocks, `for` loops and calls open scopes of their own. The scope of a call stands inside the scope
of its caller. A bound on the depth of calls and on the rounds of each loop makes every run end; a
run that does not reach it does not depend on it.
-/

namespace WordC

open Run

/-! ### Declarations and assignments -/

namespace Run

def varDecl (calls : Calls) (d : VarDecl) : Run Unit := do
  let v ← match d.init with
    | some e => do pure (← e.eval calls).value
    | none => pure 0
  if let some r := d.register then
    modify fun m => { m with
      registers := m.registers.set r.val (Word.wrap v) r.isLt
      registerNames := m.registerNames.set d.name r }
  declare d.name v d.type

/-- Stores initial values one after another. -/
def fill (calls : Calls) (a : String) : (i : Nat) → List Expr → Run Unit
  | _, [] => return ()
  | i, e :: es => do
    let v ← e.eval calls
    changing (·.setElement a i v.value)
    fill calls a (i + 1) es

/-- Declares an array in the innermost scope. -/
def declareArray (a : String) (size : Nat) : Run Unit :=
  changing fun scopes =>
    match scopes with
    | s :: rest => do return (← s.declareArray a size).2 :: rest
    | [] => .ok []

def arrayDecl (calls : Calls) (d : ArrayDecl) : Run Unit := do
  match d.size with
  | .literal size =>
    declareArray d.name size
    let values := d.init.getD []
    if size < values.length then fail (.tooManyValues d.name values.length size)
    fill calls d.name 0 values
  | e => fail (.arraySizeForm e.form)

def pointerDecl (calls : Calls) (d : PointerDecl) : Run Unit := do
  let v ← match d.init with
    | some e => do pure (← e.eval calls).value
    | none => pure 0
  declare d.name v .uint32

def decl (calls : Calls) : Decl → Run Unit
  | .var d => varDecl calls d
  | .array d => arrayDecl calls d
  | .pointer d => pointerDecl calls d

/-- Declares a global. Every global is a variable, an array one of value zero. -/
def global (calls : Calls) : Decl → Run Unit
  | .var d => varDecl calls d
  | .array d => do
    if d.init.getD [] matches _ :: _ then fail .valueList
    if d.register then fail (.noRegister "ArrayDecl")
    declare d.name 0 .uint32
  | .pointer d => do
    let v ← match d.init with
      | some e => do pure (← e.eval calls).value
      | none => pure 0
    if d.register then fail (.noRegister "PointerDecl")
    declare d.name v .uint32

/-- Assigns to a variable, and first to the register it is bound to. -/
def assign (calls : Calls) (x : String) (e : Expr) : Run Unit := do
  let v ← e.eval calls
  let type ← typeOf x
  if let some r := (← get).registerNames.get? x then
    if r.val = 31 then fail .readOnlyRegister
    modify fun m => { m with registers := m.registers.set r.val (Word.wrap v.value) r.isLt }
  changing (·.assign x v.value (some type))

/-- Adds to a variable; a register it may be bound to stays as it is. -/
def bump (x : String) (amount : Int) : Run Unit := do
  let v ← reading (·.get x)
  changing (·.assign x (v + amount) none)

def warnAsm : Run Unit := modify fun m => { m with asmWarned := true }

def truth (calls : Calls) (e : Expr) : Run Bool := do return (← e.eval calls).value != 0

def callStatement (calls : Calls) : Expr → Run Unit
  | .call f args => do let _ ← (Expr.call f args).eval calls
  | e => fail (.notCall e.form)

def forInit (calls : Calls) : ForInit → Run Unit
  | .declare d => varDecl calls d
  | .assign x e => assign calls x e

def forStep (calls : Calls) : ForStep → Run Unit
  | .increment x _ => bump x 1
  | .decrement x _ => bump x (-1)
  | .assign x e => assign calls x e

end Run

/-! ### Statements -/

namespace Stmt

mutual

def exec (calls : Calls) (fuel : Nat) : Stmt → Run Unit
  | decl d => Run.decl calls d
  | assign x e => Run.assign calls x e
  | assignIndex a i e => do
    let i ← i.eval calls
    let v ← e.eval calls
    changing (·.setElement a i.value v.value)
  | assignDeref p e => do
    let p ← p.eval calls
    let v ← e.eval calls
    changing (·.store p.value v.value)
  | ret none => throw (.returned 0)
  | ret (some e) => do throw (.returned (← e.eval calls).value)
  | ifThen c s => do
    if (← truth calls c) then exec calls fuel s
  | ifElse c s t => do
    if (← truth calls c) then exec calls fuel s else exec calls fuel t
  | whileLoop c s =>
    iterate (do
      if (← truth calls c) then attempt (exec calls fuel s) else return false) fuel
  | doWhile s c =>
    iterate (do
      if (← attempt (exec calls fuel s)) then truth calls c else return false) fuel
  | forLoop init c step s =>
    inside {} do
      if let some i := init then forInit calls i
      iterate (do
        if !(← match c with
          | some c => truth calls c
          | none => pure true) then return false
        if !(← attempt (exec calls fuel s)) then return false
        if let some st := step then forStep calls st
        return true) fuel
  | block ss => inside {} (execAll calls fuel ss)
  | call e => callStatement calls e
  | increment x _ => bump x 1
  | decrement x _ => bump x (-1)
  | breakLoop => throw .breakLoop
  | continueLoop => throw .continueLoop
  | asm _ => warnAsm
  | hole => fail .unknownStatement

def execAll (calls : Calls) (fuel : Nat) : List Stmt → Run Unit
  | [] => return ()
  | s :: ss => do
    exec calls fuel s
    execAll calls fuel ss

end

end Stmt

/-! ### Functions and programs -/

/-- The scope of a call before its body runs. -/
def Func.frame (f : Func) (args : List Int) : Scope IntType :=
  (f.params.zip args).foldl (fun s (x, v) => s.declare x v .uint32) {}

/-- What a finished body answers: a return its value, the end of the body zero. -/
def Run.answer (body : Run Unit) : Run Int := fun m =>
  match body m with
  | (.ok (), m) => (.ok 0, m)
  | (.error (.returned v), m) => (.ok (Word.wrap v), m)
  | (.error signal, m) => (.error signal, m)

def Func.run (f : Func) (calls : Calls) (fuel : Nat) (args : List Int) : Run Int := do
  if args.length ≠ f.params.length then fail (.arity f.name f.params.length args.length)
  inside (f.frame args) (answer (Stmt.exec calls fuel (.block f.body)))

namespace Program

/-- Calls of the program's functions, nested at most `fuel` deep. -/
def calls (p : Program) : (fuel : Nat) → Calls
  | 0 => ⟨p.function?, fun _ _ => throw .outOfFuel⟩
  | fuel + 1 => ⟨p.function?, fun f args => f.run (p.calls fuel) fuel args⟩

def declareGlobals (calls : Calls) : List Decl → Run Unit
  | [] => return ()
  | d :: ds => do
    global calls d
    declareGlobals calls ds

/-- Declares the globals and runs the main function. -/
def run (p : Program) (fuel : Nat) : Run Int := do
  declareGlobals (p.calls fuel) p.globals
  match p.function? "main" with
  | none => fail .noMain
  | some f =>
    if f.params ≠ [] then fail .mainParams
    (p.calls fuel).invoke f []

end Program

/-- The warning that assembly inside a program is not run. -/
def asmWarning : String :=
  "Warning: asm \x7b\x7d is not supported in interpreter; block is ignored.\n"

end WordC
