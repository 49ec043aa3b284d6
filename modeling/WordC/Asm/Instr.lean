/-!
# Assembly

The target has numbered registers, of which number 31 holds the place of the next instruction, so
that moving an address into it jumps. Instructions take registers, numbers and the addresses of
labels; a listing is a sequence of lines, of which only some are instructions. Text is made from
them at the end and nowhere else.
-/

namespace WordC.Asm

/-- The number of a register. -/
abbrev Reg := Nat

/-- The register that holds the place of the next instruction. -/
def ip : Reg := 31

/-- The register that points at the top of the stack. -/
def sp : Reg := 30

/-- The register that a function uses to return. -/
def link : Reg := 29

/-- The register of a function's result. -/
def result : Reg := 0

/-! ### Labels -/

/-- What a label made for one use stands for. -/
inductive Stem where
  | mulLoop | mulEnd | divLoop | divEnd | divError | divSkip | modLoop | modEnd | modError | modSkip
  | andEnd | retAddr | elseBranch | endIf | whileStart | whileEnd | doStart | doCondition | doEnd
  | forStart | forIncrement | forEnd
  | other (text : String)
  deriving DecidableEq, Repr

def Stem.text : Stem → String
  | mulLoop => "mul_loop"
  | mulEnd => "mul_end"
  | divLoop => "div_loop"
  | divEnd => "div_end"
  | divError => "div_error"
  | divSkip => "div_skip_error"
  | modLoop => "mod_loop"
  | modEnd => "mod_end"
  | modError => "mod_error"
  | modSkip => "mod_skip_error"
  | andEnd => "and_end"
  | retAddr => "ret_addr"
  | elseBranch => "else"
  | endIf => "endif"
  | whileStart => "while_start"
  | whileEnd => "while_end"
  | doStart => "do_start"
  | doCondition => "do_condition"
  | doEnd => "do_end"
  | forStart => "for_start"
  | forIncrement => "for_increment"
  | forEnd => "for_end"
  | other text => text

inductive Label where
  | minted (stem : Stem) (number : Nat)
  | main
  | function (name : String)
  | globalVar (name : String)
  | globalArray (name : String)
  | localArray (function name : String) (number : Nat)
  | named (text : String)
  deriving DecidableEq, Repr

def Label.text : Label → String
  | minted stem n => stem.text ++ "_" ++ toString n
  | main => "main"
  | function name => "func_" ++ name
  | globalVar name => "var_" ++ name
  | globalArray name => "array_" ++ name
  | localArray f name n => "array_" ++ f ++ "_" ++ name ++ "_" ++ toString n
  | named text => text

/-! ### Instructions -/

inductive Operand where
  | reg (r : Reg)
  | imm (value : Int)
  | addr (l : Label)
  deriving DecidableEq, Repr

inductive AluOp where
  | add | sub | bitAnd | bitOr | bitXor | shiftLeft | shiftRight
  deriving DecidableEq, Repr

/-- Comparisons of unsigned words. They set all bits or none. -/
inductive CmpOp where
  | equal | above | below
  deriving DecidableEq, Repr

/-- Instructions that pass a register to a device or fill it from one. -/
inductive DeviceOp where
  | setGpio | getGpio | outGpio | setUart | inUart | outUart
  deriving DecidableEq, Repr

inductive Instr where
  | mov (d : Reg) (s : Operand)
  | alu (op : AluOp) (d a : Reg) (b : Operand)
  | complement (d a : Reg)
  | cmp (op : CmpOp) (d a b : Reg)
  /-- Moves when `c` is zero. -/
  | movZero (d c : Reg) (s : Operand)
  /-- Moves when `c` is not zero. -/
  | movNonzero (d c : Reg) (s : Operand)
  | load (d a : Reg)
  | store (a s : Reg)
  | device (op : DeviceOp) (r : Reg)
  | halt
  deriving DecidableEq, Repr

inductive Line where
  | instr (i : Instr)
  | label (l : Label)
  | comment (text : String)
  /-- Text taken over as an instruction. -/
  | verbatim (text : String)
  | word (value : Nat)
  /-- Text that stands at the start of a line. -/
  | directive (text : String)
  | blank
  deriving DecidableEq, Repr

/-! ### Text -/

def regText (r : Reg) : String := "r:" ++ toString r

def Operand.text : Operand → String
  | reg r => regText r
  | imm n => toString n
  | addr l => l.text ++ " addr"

def AluOp.text : AluOp → String
  | add => "add"
  | sub => "sub"
  | bitAnd => "and"
  | bitOr => "or"
  | bitXor => "xor"
  | shiftLeft => "shl"
  | shiftRight => "shr"

def CmpOp.text : CmpOp → String
  | equal => "cmpe"
  | above => "cmpa"
  | below => "cmpb"

def DeviceOp.text : DeviceOp → String
  | setGpio => "setg"
  | getGpio => "getg"
  | outGpio => "outg"
  | setUart => "setu"
  | inUart => "inu"
  | outUart => "outu"

def Instr.text : Instr → String
  | mov d s => "mov " ++ regText d ++ ", " ++ s.text
  | alu op d a b => op.text ++ " " ++ regText d ++ ", " ++ regText a ++ ", " ++ b.text
  | complement d a => "not " ++ regText d ++ ", " ++ regText a
  | cmp op d a b => op.text ++ " " ++ regText d ++ ", " ++ regText a ++ ", " ++ regText b
  | movZero d c s => "cmovz " ++ regText d ++ ", " ++ regText c ++ ", " ++ s.text
  | movNonzero d c s => "cmovnz " ++ regText d ++ ", " ++ regText c ++ ", " ++ s.text
  | load d a => "lds " ++ regText d ++ ", [" ++ regText a ++ "]"
  | store a s => "lds [" ++ regText a ++ "], " ++ regText s
  | device op r => op.text ++ " " ++ regText r
  | halt => "hlt"

def Line.text : Line → String
  | instr i => "\t" ++ i.text
  | label l => l.text ++ ":"
  | comment text => "\t; " ++ text
  | verbatim text => "\t" ++ text
  | word n => "\tdd " ++ toString n
  | directive text => text
  | blank => ""

end WordC.Asm
