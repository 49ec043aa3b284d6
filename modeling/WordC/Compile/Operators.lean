import WordC.Compile.State

/-!
# Code for operators

Each operator becomes a short sequence over its operand registers `l` and `r` and its result
register `d`. Multiplication, division and remainder count in loops; a division by zero gives zero.
Comparisons turn the machine's flags, all bits or none, into one or zero.
-/

namespace WordC.Compile

open Asm

def mul (d l r : Reg) : Compile Unit := do
  let a ← temp
  let n ← temp
  emit (.mov a (.reg l))
  emit (.mov n (.reg r))
  emit (.mov d (.imm 0))
  let again ← mint .mulLoop
  let done ← mint .mulEnd
  place again
  let z ← temp
  emit (.mov z (.imm 0))
  jumpIfZero n done
  emit (.alu .add d d (.reg a))
  let one ← temp
  emit (.mov one (.imm 1))
  emit (.alu .sub n n (.reg one))
  jump again
  place done

def div (d l r : Reg) : Compile Unit := do
  let a ← temp
  let b ← temp
  emit (.mov a (.reg l))
  emit (.mov b (.reg r))
  emit (.mov d (.imm 0))
  let again ← mint .divLoop
  let done ← mint .divEnd
  let z ← temp
  emit (.mov z (.imm 0))
  let failed ← mint .divError
  jumpIfZero b failed
  place again
  let flag ← temp
  emit (.cmp .below flag a b)
  let z' ← temp
  emit (.mov z' (.imm 0))
  jumpIfNonzero flag done
  emit (.alu .sub a a (.reg b))
  let one ← temp
  emit (.mov one (.imm 1))
  emit (.alu .add d d (.reg one))
  jump again
  place done
  let skip ← mint .divSkip
  jump skip
  place failed
  emit (.mov d (.imm 0))
  place skip

def mod (d l r : Reg) : Compile Unit := do
  let a ← temp
  let b ← temp
  emit (.mov a (.reg l))
  emit (.mov b (.reg r))
  let again ← mint .modLoop
  let done ← mint .modEnd
  let z ← temp
  emit (.mov z (.imm 0))
  let failed ← mint .modError
  jumpIfZero b failed
  place again
  let flag ← temp
  emit (.cmp .below flag a b)
  let z' ← temp
  emit (.mov z' (.imm 0))
  jumpIfNonzero flag done
  emit (.alu .sub a a (.reg b))
  jump again
  place done
  emit (.mov d (.reg a))
  let skip ← mint .modSkip
  jump skip
  place failed
  emit (.mov d (.imm 0))
  place skip

/-- A register for a flag: the result's own, or another one when the result overwrites an operand.
-/
def flagFor (d l r : Reg) : Compile Reg := if d = l ∨ d = r then temp else return d

/-- The tests that invert a flag with all ones. `onZero` says which conditional move comes first. -/
def flagTest (op : CmpOp) (onZero : Bool) (d l r : Reg) : Compile Unit := do
  let flag ← flagFor d l r
  emit (.cmp op flag l r)
  let ones ← temp
  emit (.mov ones (.imm (-1)))
  emit (if onZero then .movZero d flag (.reg ones) else .movNonzero d flag (.reg ones))
  emit (.alu .bitXor d d (.reg ones))

def less (d l r : Reg) : Compile Unit := do
  if d = l ∨ d = r then
    let flag ← temp
    emit (.cmp .below flag l r)
    let one ← tempAvoiding [d, flag]
    emit (.mov d (.imm 0))
    emit (.mov one (.imm 1))
    emit (.movNonzero d flag (.reg one))
  else
    emit (.cmp .below d l r)
    let spare ← tempAvoiding [d]
    let one ← tempAvoiding [d, spare]
    emit (.mov one (.imm 1))
    emit (.movNonzero d d (.reg one))

def lessEqual (d l r : Reg) : Compile Unit := do
  let flag ← temp
  emit (.cmp .above flag l r)
  let one ← temp
  let z ← temp
  emit (.mov one (.imm 1))
  emit (.mov z (.imm 0))
  emit (.movZero d flag (.reg one))
  emit (.movNonzero d flag (.reg z))

def greaterEqual (d l r : Reg) : Compile Unit := do
  let flag ← tempAvoiding [l, r]
  emit (.cmp .below flag l r)
  let one ← tempAvoiding [l, r, d, flag]
  emit (.mov d (.imm 0))
  emit (.mov one (.imm 1))
  emit (.movZero d flag (.reg one))

def logicalAnd (d l r : Reg) : Compile Unit := do
  let z ← tempAvoiding [l, r, d]
  emit (.mov z (.imm 0))
  emit (.mov d (.imm 0))
  let done ← mint .andEnd
  let flag ← tempAvoiding [l, r, d, z]
  emit (.cmp .equal flag l z)
  jumpIfNonzero flag done
  let flag' ← tempAvoiding [l, r, d, z, flag]
  emit (.cmp .equal flag' r z)
  jumpIfNonzero flag' done
  let one ← tempAvoiding [l, r, d, z, flag, flag']
  emit (.mov one (.imm 1))
  emit (.mov d (.imm 1))
  jump done
  place done

def logicalOr (d l r : Reg) : Compile Unit := do
  let z ← temp
  emit (.mov z (.imm 0))
  emit (.cmp .equal d l z)
  let one ← temp
  emit (.mov one (.imm 1))
  emit (.movNonzero d d (.reg one))
  emit (.cmp .equal one r z)
  emit (.movNonzero d one (.reg d))

/-- The code of a binary operator. -/
def binary (op : BinOp) (d l r : Reg) : Compile Unit :=
  match op with
  | .add => emit (.alu .add d l (.reg r))
  | .sub => emit (.alu .sub d l (.reg r))
  | .bitAnd => emit (.alu .bitAnd d l (.reg r))
  | .bitOr => emit (.alu .bitOr d l (.reg r))
  | .bitXor => emit (.alu .bitXor d l (.reg r))
  | .shiftLeft => emit (.alu .shiftLeft d l (.reg r))
  | .shiftRight => emit (.alu .shiftRight d l (.reg r))
  | .mul => mul d l r
  | .div => div d l r
  | .mod => mod d l r
  | .equal => flagTest .equal true d l r
  | .notEqual => flagTest .equal false d l r
  | .greater => flagTest .above true d l r
  | .less => less d l r
  | .lessEqual => lessEqual d l r
  | .greaterEqual => greaterEqual d l r
  | .logicalAnd => logicalAnd d l r
  | .logicalOr => logicalOr d l r

/-- The code of a unary operator. -/
def unary (op : UnaryOp) (d a : Reg) : Compile Unit :=
  match op with
  | .logicalNot => do
    let z ← temp
    emit (.mov z (.imm 0))
    emit (.cmp .equal d a z)
    let ones ← temp
    emit (.mov ones (.imm (-1)))
    emit (.movZero d d (.reg ones))
    emit (.alu .bitXor d d (.reg ones))
  | .complement => emit (.complement d a)
  | .negate => do
    let z ← temp
    emit (.mov z (.imm 0))
    emit (.alu .sub d z (.reg a))

end WordC.Compile
