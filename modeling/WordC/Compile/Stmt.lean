import WordC.Compile.Expr
import WordC.Stmt.Basic
import WordC.Text.Space

/-!
# Code for statements and functions

Scalars of a function live in registers, globals and arrays in the data section. Control flow
becomes labels and jumps; a `continue` goes to the step of a `for`, to the condition of a `do` and
to the start of a `while`.
-/

namespace WordC

open Asm Compile

namespace Compile

/-! ### Declarations -/

/-- Moves the value of an expression into a variable's register. -/
def initTo (d : Reg) (e : Expr) : Compile Unit := do move d (← e.compile)

/-- The word that an initial value puts into the data section; what is not constant starts as zero.
-/
def dataWord : Expr → Line
  | .literal n => .word n
  | _ => .word 0

def globalVar (d : VarDecl) : Compile Unit := do
  let l : Label := .globalVar d.name
  modify fun c => { c with globals := c.globals.set d.name l }
  dataLine (.label l)
  dataLine ((d.init.map dataWord).getD (.word 0))
  modify fun c => { c with varPlaces := c.varPlaces.set d.name (.label l) }

def localVar (d : VarDecl) : Compile Unit := do
  let r ← allocate d.name
  modify fun c => { c with
    varPlaces := c.varPlaces.set d.name (.slot c.stackOffset)
    stackOffset := c.stackOffset + 1 }
  match d.init with
  | some e => initTo r e
  | none => emit (.mov r (.imm 0))

def registerVar (d : VarDecl) (r : Fin 32) : Compile Unit := do
  if r.val > 30 then throw (.registerNumber d.name)
  modify fun c => { c with pool := { c.pool with allocated := c.pool.allocated.set d.name r.val } }
  if let some e := d.init then initTo r.val e

def varDecl (d : VarDecl) : Compile Unit := do
  match d.register with
  | some r => registerVar d r
  | none =>
    if (← currentFunction).isNone then globalVar d else localVar d

def zeros (n : Nat) : Compile Unit :=
  modify fun c => { c with data := c.data ++ Array.replicate n (.word 0) }

/-- Initial values of an array inside a function. Those that are not constant are stored when the
declaration runs. -/
def localValues (l : Label) : (i : Nat) → List Expr → Compile Unit
  | _, [] => return ()
  | i, e :: es => do
    dataLine (dataWord e)
    match e with
    | .literal _ => pure ()
    | e =>
      let v ← e.compile
      let a ← temp
      emit (.mov a (.addr l))
      let n ← temp
      emit (.mov n (.imm i))
      emit (.alu .add a a (.reg n))
      emit (.store a v)
    localValues l (i + 1) es

def globalArray (d : ArrayDecl) (size : Nat) : Compile Unit := do
  let l : Label := .globalArray d.name
  let values := d.init.getD []
  modify fun c => { c with globals := c.globals.set d.name l }
  dataLine (.label l)
  values.forM fun e => dataLine (dataWord e)
  zeros (size - values.length)
  modify fun c => { c with arrays := c.arrays.set d.name (.label l) }

def localArray (d : ArrayDecl) (size : Nat) (f : String) : Compile Unit := do
  let l : Label := .localArray f d.name (← labelNumber)
  let values := d.init.getD []
  dataLine (.label l)
  localValues l 0 values
  zeros (size - values.length)
  modify fun c => { c with
    arrays := c.arrays.set d.name (.label l)
    sizes := c.sizes.set d.name size }

def arrayDecl (d : ArrayDecl) : Compile Unit := do
  match d.size with
  | .literal size =>
    if size = 0 then throw (.arraySize size)
    match (← currentFunction) with
    | none => globalArray d size
    | some f => localArray d size f
  | e => throw (.arraySizeForm e.form)

def pointerDecl (d : PointerDecl) : Compile Unit := do
  let r ← allocate d.name
  match d.init with
  | some e => initTo r e
  | none => emit (.mov r (.imm 0))

def decl : Decl → Compile Unit
  | .var d => varDecl d
  | .array d => arrayDecl d
  | .pointer d => pointerDecl d

/-! ### Assignments -/

def storeLabel (l : Label) (v : Reg) : Compile Unit := do
  let a ← tempAvoiding [v]
  emit (.mov a (.addr l))
  emit (.store a v)

def assign (x : String) (e : Expr) : Compile Unit := do
  let v ← e.compile
  match (← get).globals.get? x with
  | some l => storeLabel l v
  | none =>
    match (← registerOf? x) with
    | some r => move r v
    | none => do move (← allocate x) v

def assignIndex (a : String) (i e : Expr) : Compile Unit := do
  let i ← i.compile
  let v ← e.compile
  match (← get).arrays.get? a with
  | some p =>
    let t ← temp
    elementAddress t (← arrayLabel a p) i
    emit (.store t v)
  | none => throw (.noArray a)

def assignDeref (p e : Expr) : Compile Unit := do
  let a ← p.compile
  let v ← e.compile
  emit (.store a v)

/-- Adds one to a variable's register or takes one off. -/
def bump (op : AluOp) (x : String) : Compile Unit := do
  match (← registerOf? x) with
  | some r =>
    let one ← temp
    emit (.mov one (.imm 1))
    emit (.alu op r r (.reg one))
  | none => throw (.undefinedCounter x)

/-! ### Calls, returns and raw assembly -/

/-- A call for its effects. The arguments of a device function are compiled once for their own
effects and, except for `uart_write`, again for the call. -/
def callStatement : Expr → Compile Unit
  | .call f args => do
    if (← get).functions.contains f then
      let _ ← (Expr.call f args).compile
    else
      let regs ← Expr.compileAll args
      if f = "uart_write" then
        match regs with
        | [r] => emit (.device .outUart r)
        | _ => throw (.writeArity regs.length)
      else
        let _ ← (Expr.call f args).compile
  | e => throw (.notCall e.form)

/-- The way out of a function. The main function stops the machine. -/
def leave : Compile Unit := do
  if (← currentFunction) = some "main" then emit .halt
  else
    emit (.load link sp)
    emit (.alu .add sp sp (.imm 1))
    emit (.mov ip (.reg link))

def ret (value : Option Expr) : Compile Unit := do
  modify fun c => { c with returned := true }
  match value with
  | some e => do move result (← e.compile)
  | none => emit (.mov result (.imm 0))
  leave

/-- The lines of a raw block, without the blanks around them. -/
def asm (text : String) : Compile Unit :=
  (Text.lines text.toList).forM fun cs =>
    let cs := Text.trim cs
    line (if cs.isEmpty then .blank else .verbatim (String.ofList cs))

/-! ### Loop heads -/

def forInit : ForInit → Compile Unit
  | .declare d => varDecl d
  | .assign x e => assign x e

def forStep : ForStep → Compile Unit
  | .increment x _ => bump .add x
  | .decrement x _ => bump .sub x
  | .assign x e => assign x e

/-- Leaves a loop when a condition does not hold. -/
def exitUnless (c : Expr) (exit : Label) : Compile Unit := do jumpIfZero (← c.compile) exit

end Compile

namespace Stmt

mutual

def compile : Stmt → Compile Unit
  | decl d => Compile.decl d
  | assign x e => Compile.assign x e
  | assignIndex a i e => Compile.assignIndex a i e
  | assignDeref p e => Compile.assignDeref p e
  | ret value => Compile.ret value
  | ifThen c s => do
    let r ← c.compile
    let _ ← mint .elseBranch
    let done ← mint .endIf
    let z ← temp
    emit (.mov z (.imm 0))
    jumpIfZero r done
    compile s
    place done
  | ifElse c s t => do
    let r ← c.compile
    let other ← mint .elseBranch
    let done ← mint .endIf
    let z ← temp
    emit (.mov z (.imm 0))
    jumpIfZero r other
    compile s
    jump done
    place other
    compile t
    place done
  | whileLoop c s => do
    let start ← mint .whileStart
    let exit ← mint .whileEnd
    inLoop ⟨start, exit⟩ do
      place start
      exitUnless c exit
      compile s
      jump start
      place exit
  | doWhile s c => do
    let start ← mint .doStart
    let test ← mint .doCondition
    let exit ← mint .doEnd
    inLoop ⟨test, exit⟩ do
      place start
      compile s
      place test
      exitUnless c exit
      jump start
      place exit
  | forLoop init c step s => do
    if let some i := init then forInit i
    let start ← mint .forStart
    let next ← if step.isSome then mint .forIncrement else pure start
    let exit ← mint .forEnd
    inLoop ⟨next, exit⟩ do
      place start
      if let some c := c then
        let r ← c.compile
        let z ← temp
        emit (.mov z (.imm 0))
        jumpIfZero r exit
      compile s
      if let some st := step then
        place next
        forStep st
      jump start
      place exit
  | block ss => compileAll ss
  | call e => callStatement e
  | increment x _ => bump .add x
  | decrement x _ => bump .sub x
  | breakLoop => do
    match (← get).loops with
    | l :: _ => jump l.exit
    | [] => throw .breakOutside
  | continueLoop => do
    match (← get).loops with
    | l :: _ => jump l.next
    | [] => throw .continueOutside
  | asm text => Compile.asm text
  | hole => do throw (.unknownStatement (← currentFunction))

def compileAll : List Stmt → Compile Unit
  | [] => return ()
  | s :: ss => do
    compile s
    compileAll ss

end

end Stmt

/-! ### Functions -/

namespace Compile

/-- Loads parameters from the stack, where they stand behind the return address. -/
def loadParams : (i : Nat) → List String → Compile Unit
  | _, [] => return ()
  | i, x :: xs => do
    let r ← allocate x
    let a ← temp
    emit (.mov a (.reg sp))
    let n ← temp
    emit (.mov n (.imm (i + 1 : Nat)))
    emit (.alu .add a a (.reg n))
    emit (.load r a)
    loadParams (i + 1) xs

def functionLabel (name : String) : Label := if name = "main" then .main else .function name

end Compile

/-- The code of a function. Its registers are its own, while tables of arrays and addresses go on.
-/
def Func.compile (f : Func) : Compile Unit := do
  let outer ← get
  let start := if f.name = "main" then 0 else 1 + f.params.length
  modify fun c => { c with current := some f.name, pool := {}, stackOffset := start }
  line .blank
  place (((← get).functions.get? f.name).getD (functionLabel f.name))
  line (.comment ("Function: " ++ f.name))
  let _ ← temp
  loadParams 0 f.params
  modify fun c => { c with returned := false }
  Stmt.compileAll f.body
  if !(← get).returned then
    line (.comment "Implicit return 0")
    emit (.mov result (.imm 0))
    leave
  modify fun c => { c with
    returned := false, current := outer.current, pool := outer.pool, stackOffset :=
      outer.stackOffset }

end WordC
