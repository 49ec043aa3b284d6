import WordC.Compile.Operators
import WordC.Word

/-!
# Code for expressions

The code of an expression leaves its value in a register and gives the number of that register: a
temporary, or the register of a variable that is the whole expression. Arguments of a call are
pushed on the stack, the last one first, with the return address on top; the caller takes them off
again.
-/

namespace WordC

open Asm Compile

namespace Compile

/-- Loads what is stored at a label. -/
def loadLabel (l : Label) : Compile Reg := do
  let d ← temp
  let a ← temp
  emit (.mov a (.addr l))
  emit (.load d a)
  return d

def name (x : String) : Compile Reg := do
  match (← get).globals.get? x with
  | some l => loadLabel l
  | none =>
    match (← registerOf? x) with
    | some r => return r
    | none => throw (.undefinedVariable x (← currentFunction))

/-- Pushes a register. -/
def push (r : Reg) : Compile Unit := do
  emit (.alu .sub sp sp (.imm 1))
  emit (.store sp r)

/-- The part of a call behind its arguments. `t` is the register they were pushed through. -/
def callPushed (t : Reg) (target : Label) (count : Nat) : Compile Reg := do
  let back ← mint .retAddr
  emit (.mov t (.addr back))
  push t
  jump target
  place back
  if count > 0 then
    let n ← temp
    emit (.mov n (.imm count))
    emit (.alu .add sp sp (.reg n))
  let d ← temp
  move d result
  return d

/-- The number of arguments of a device function that code can be made for. -/
def deviceArity? : String → Option Nat
  | "gpio_set" => some 3
  | "gpio_read" => some 1
  | "gpio_write" => some 2
  | "uart_set_baud" => some 1
  | "uart_read" => some 0
  | "uart_write" => some 1
  | _ => none

/-- The code of a device function behind its arguments. -/
def device (d : Reg) (f : String) (args : List Reg) : Compile Unit := do
  match f, args with
  | "gpio_set", [pin, direction, mode] =>
    let t ← temp
    emit (.alu .shiftLeft t pin (.imm 16))
    let u ← temp
    emit (.alu .shiftLeft u direction (.imm 8))
    emit (.alu .bitOr t t (.reg u))
    emit (.alu .bitOr t t (.reg mode))
    emit (.device .setGpio t)
    emit (.mov d (.imm 0))
  | "gpio_read", _ => emit (.device .getGpio d)
  | "gpio_write", [pin, value] =>
    let t ← temp
    emit (.alu .shiftLeft t pin (.imm 8))
    emit (.alu .bitOr t t (.reg value))
    emit (.device .outGpio t)
    emit (.mov d (.imm 0))
  | "uart_set_baud", [rate] =>
    emit (.device .setUart rate)
    emit (.mov d (.imm 0))
  | "uart_read", _ => emit (.device .inUart d)
  | "uart_write", [byte] =>
    emit (.device .outUart byte)
    emit (.mov d (.imm 0))
  | _, _ => throw (.unknownDevice f (← currentFunction))

/-- The label of an array that is to be indexed. -/
def indexLabel (a : String) : ArrayPlace → Compile Label
  | .label l => return l
  | .number _ => throw (.indexPlace a)

/-- The label of an array that is to be stored to or pointed at. -/
def arrayLabel (a : String) : ArrayPlace → Compile Label
  | .label l => return l
  | .number _ => do throw (.arrayPlace a (← currentFunction))

/-- Puts the address of an element into a register. -/
def elementAddress (d : Reg) (l : Label) (i : Reg) : Compile Unit := do
  emit (.mov d (.addr l))
  emit (.alu .add d d (.reg i))

def loadElement (a : String) (i : Reg) : Compile Reg := do
  match (← get).arrays.get? a with
  | some p =>
    let d ← temp
    let t ← temp
    elementAddress t (← indexLabel a p) i
    emit (.load d t)
    return d
  | none => throw (.noArray a)

def addressOfElement (d : Reg) (a : String) (i : Reg) : Compile Unit := do
  match (← get).arrays.get? a with
  | some p =>
    let t ← temp
    elementAddress t (← indexLabel a p) i
    emit (.mov d (.reg t))
  | none => throw (.noArray a)

def addressOfName (d : Reg) (x : String) : Compile Unit := do
  let c ← get
  match c.varPlaces.get? x with
  | some (.label l) => emit (.mov d (.addr l))
  | some (.slot offset) =>
    emit (.mov d (.reg sp))
    if offset > 0 then
      let t ← temp
      emit (.mov t (.imm offset))
      emit (.alu .add d d (.reg t))
  | none =>
    match c.arrays.get? x with
    | some p => do emit (.mov d (.addr (← arrayLabel x p)))
    | none => throw (.noAddress x)

end Compile

namespace Expr

mutual

def compile : Expr → Compile Reg
  | literal n => do
    let d ← temp
    emit (.mov d (.imm (Word.wrap n)))
    return d
  | name x => Compile.name x
  | index a i => do loadElement a (← compile i)
  | addressOf (name x) => do
    let d ← temp
    addressOfName d x
    return d
  | addressOf (index a i) => do
    let d ← temp
    addressOfElement d a (← compile i)
    return d
  | addressOf (deref e) => do
    let _ ← temp
    compile e
  | addressOf e => do
    let _ ← temp
    throw (.addressOfForm e.form (← currentFunction))
  | deref e => do
    let a ← compile e
    let d ← temp
    emit (.load d a)
    return d
  | unary op e => do
    let a ← compile e
    let d ← temp
    Compile.unary op d a
    return d
  | binary op l r => do
    let l ← compile l
    let r ← compile r
    let d ← temp
    Compile.binary op d l r
    return d
  | call f args => do
    match (← get).functions.get? f with
    | some target =>
      let t ← temp
      pushAll t args
      callPushed t target args.length
    | none =>
      let d ← temp
      match deviceArity? f with
      | none => throw (.unknownDevice f (← currentFunction))
      | some n =>
        if args.length ≠ n then throw (.arity f n args.length)
        device d f (← compileAll args)
        return d
  | foreignUnary op e => do
    let _ ← compile e
    let _ ← temp
    throw (.unknownUnary op (← currentFunction))
  | foreignBinary op l r => do
    let _ ← compile l
    let _ ← compile r
    let _ ← temp
    throw (.unknownBinary op (← currentFunction))
  | hole => do throw (.unknownExpression (← currentFunction))

/-- Expressions from left to right, each with a register. -/
def compileAll : List Expr → Compile (List Reg)
  | [] => return []
  | e :: es => do
    let r ← compile e
    return r :: (← compileAll es)

/-- Pushes arguments through the register `t`, the last one first. -/
def pushAll (t : Reg) : List Expr → Compile Unit
  | [] => return ()
  | e :: es => do
    pushAll t es
    move t (← compile e)
    push t

end

end Expr

end WordC
