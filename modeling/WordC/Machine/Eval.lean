import WordC.Machine.State

/-!
# Evaluating expressions

An expression has a value and a type. Literals, elements, addresses and results of calls are
unsigned; a variable has its declared type and its value is read as it is stored, between `0` and `2
^ 32`. An operator with a signed operand reads an unsigned partner as signed; it takes a signed
operand as it comes. Both operands of an operator are always evaluated, the left one first.

Functions of the program are not run here: `Calls` says which there are and what a call does.
-/

namespace WordC

/-- The value of an expression with its type. -/
structure Value where
  value : Int
  type : IntType
  deriving DecidableEq, Repr

/-- The functions of a program: how to find one and what a call does. -/
structure Calls where
  find? : String → Option Func
  invoke : Func → List Int → Run Int

/-! ### Operators -/

def IntType.normal : IntType → Int → Int
  | uint32, v => Word.wrap v
  | int32, v => Word.signed v

namespace BinOp

/-- The result of an operator on two numbers, `none` for a division by zero. -/
def result? (op : BinOp) (l r : Int) : Option Int :=
  let truth (b : Bool) : Option Int := some (if b then 1 else 0)
  match op with
  | add => some (l + r)
  | sub => some (l - r)
  | mul => some (l * r)
  | div => if r = 0 then none else some (l.fdiv r)
  | mod => if r = 0 then none else some (l.fmod r)
  | bitAnd => some (Word.bitAnd l r)
  | bitOr => some (Word.bitOr l r)
  | bitXor => some (Word.bitXor l r)
  | shiftLeft => some (Word.shiftLeft l r)
  | shiftRight => some (Word.shiftRight l r)
  | equal => truth (l = r)
  | notEqual => truth (l ≠ r)
  | less => truth (l < r)
  | lessEqual => truth (l ≤ r)
  | greater => truth (l > r)
  | greaterEqual => truth (l ≥ r)
  | logicalAnd => truth (l ≠ 0 ∧ r ≠ 0)
  | logicalOr => truth (l ≠ 0 ∨ r ≠ 0)

/-- Whether an operator answers yes or no. -/
def isTest : BinOp → Bool
  | equal | notEqual | less | lessEqual | greater | greaterEqual | logicalAnd | logicalOr => true
  | _ => false

def divisionError : BinOp → RunError
  | mod => .moduloByZero
  | _ => .divisionByZero

/-- The reading of an operand beside an operand of type `other`. -/
def operand (v : Value) (other : IntType) : Int :=
  if v.type = .uint32 ∧ other = .int32 then Word.signed v.value else v.value

def resultType (op : BinOp) (l r : IntType) : IntType :=
  if op.isTest then .uint32
  else if l = .int32 ∨ r = .int32 then .int32
  else .uint32

def apply (op : BinOp) (l r : Value) : Except RunError Value :=
  let type := op.resultType l.type r.type
  match op.result? (operand l r.type) (operand r l.type) with
  | some v => .ok ⟨type.normal v, type⟩
  | none => .error op.divisionError

end BinOp

def UnaryOp.apply (op : UnaryOp) (v : Value) : Value :=
  match op with
  | negate =>
    let n := if v.type = .uint32 then Word.signed v.value else v.value
    ⟨Word.signed (-n), .int32⟩
  | logicalNot => ⟨if v.value ≠ 0 then 0 else 1, .uint32⟩
  | complement => ⟨v.type.normal (Word.complement v.value), v.type⟩

/-! ### Names and addresses -/

namespace Run

def typeOf (x : String) : Run IntType := do return ((← get).scopes.typeOf? x).getD .uint32

/-- A variable. A name bound to a register is read from the register. -/
def readVariable (x : String) : Run Value := do
  let m ← get
  let v ← match m.registerNames.get? x with
    | some r => pure (m.registers.get r)
    | none => reading (·.get x)
  return ⟨Word.wrap v, ← typeOf x⟩

def address (x : String) : Run Int := do
  let (cell, scopes) ← ofScope ((← get).scopes.address x)
  modify fun m => { m with scopes }
  return cell

/-- The type of what is stored at an address: that of a variable of the innermost scope, else
unsigned. -/
def typeAt (address : Int) : Run IntType := do
  match (← get).scopes with
  | s :: _ =>
    match s.variableAt? address with
    | some x => typeOf x
    | none => return .uint32
  | [] => return .uint32

def deviceCall (name : String) (args : List Int) : Run Int := do
  let m ← get
  match m.devices.callNamed name args with
  | .ok (v, devices) => do
    set { m with devices }
    return v
  | .error e => fail (.device e)

end Run

/-! ### Expressions -/

namespace Expr

open Run

mutual

def eval (calls : Calls) : Expr → Run Value
  | literal n => return ⟨Word.wrap n, .uint32⟩
  | name x => readVariable x
  | index a i => do
    let i ← eval calls i
    return ⟨← reading (·.element a i.value), .uint32⟩
  | addressOf (name x) => return ⟨← address x, .uint32⟩
  | addressOf (index a i) => do
    let i ← eval calls i
    return ⟨Word.wrap ((← address a) + i.value), .uint32⟩
  | addressOf (deref e) => do return ⟨(← eval calls e).value, .uint32⟩
  | addressOf e => fail (.addressOfForm e.form)
  | deref e => do
    let p ← eval calls e
    let v ← reading (·.load p.value)
    return ⟨v, ← typeAt p.value⟩
  | unary op e => do return op.apply (← eval calls e)
  | binary op l r => do
    let l ← eval calls l
    let r ← eval calls r
    match op.apply l r with
    | .ok v => return v
    | .error e => fail e
  | call f args => do
    if (DeviceFunction.ofName? f).isSome then
      return ⟨← deviceCall f (← evalAll calls args), .uint32⟩
    else
      match calls.find? f with
      | none => fail (.undefinedFunction f)
      | some g => return ⟨← calls.invoke g (← evalAll calls args), .uint32⟩
  | foreignUnary op e => do
    let _ ← eval calls e
    fail (.unknownUnary op)
  | foreignBinary op l r => do
    let _ ← eval calls l
    let _ ← eval calls r
    fail (.unknownBinary op)
  | hole => fail .unknownExpression

/-- The values of arguments, from left to right. -/
def evalAll (calls : Calls) : List Expr → Run (List Int)
  | [] => return []
  | e :: es => do
    let v ← eval calls e
    return v.value :: (← evalAll calls es)

end

end Expr

end WordC
