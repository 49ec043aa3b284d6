import WordC.Asm.Instr

/-!
# Running a listing

The processor goes through a listing line by line. It has registers and a memory of words and counts
the lines; the address of a label is the number of the line that places it. Whatever is written to
the register of the next instruction is where the processor goes on. Comparisons set all bits or
none, and a conditional move looks at one register only. What a device delivers is not known, so a
run takes a sequence of words for it.

A part of a listing runs in its place: `Placed` says which lines stand at a position, and `Leads`
that the processor gets from one state to another whatever the devices deliver.
-/

namespace WordC.Asm

structure Cpu where
  regs : Reg → BitVec 32
  memory : BitVec 32 → BitVec 32
  /-- The number of the line that comes next. -/
  pc : Nat

def AluOp.eval : AluOp → BitVec 32 → BitVec 32 → BitVec 32
  | add, a, b => a + b
  | sub, a, b => a - b
  | bitAnd, a, b => a &&& b
  | bitOr, a, b => a ||| b
  | bitXor, a, b => a ^^^ b
  | shiftLeft, a, b => a <<< (b.toNat % 32)
  | shiftRight, a, b => a >>> (b.toNat % 32)

def CmpOp.holds : CmpOp → BitVec 32 → BitVec 32 → Bool
  | equal, a, b => a == b
  | above, a, b => b < a
  | below, a, b => a < b

/-- All bits or none. -/
def CmpOp.flag (op : CmpOp) (a b : BitVec 32) : BitVec 32 := if op.holds a b then -1 else 0

/-- Whether a device fills the register. -/
def DeviceOp.delivers : DeviceOp → Bool
  | getGpio | inUart => true
  | _ => false

/-- The number of the line that places a label. -/
def lineOf (code : List Line) (l : Label) : Nat := code.idxOf (.label l)

namespace Cpu

/-- Goes on with the line behind. -/
def next (s : Cpu) : Cpu := { s with pc := s.pc + 1 }

def jump (s : Cpu) (n : Nat) : Cpu := { s with pc := n }

def setReg (s : Cpu) (d : Reg) (v : BitVec 32) : Cpu :=
  { s with regs := fun r => if r = d then v else s.regs r }

def setMemory (s : Cpu) (a v : BitVec 32) : Cpu :=
  { s with memory := fun b => if b = a then v else s.memory b }

/-- Writes a result. -/
def put (s : Cpu) (d : Reg) (v : BitVec 32) : Cpu :=
  if d = ip then s.jump v.toNat else (s.setReg d v).next

def value (code : List Line) (s : Cpu) : Operand → BitVec 32
  | .reg r => s.regs r
  | .imm n => BitVec.ofInt 32 n
  | .addr l => BitVec.ofNat 32 (lineOf code l)

/-- Moves an operand. The address of a label leads to its line however long the listing is. -/
def move (code : List Line) (s : Cpu) (d : Reg) : Operand → Cpu
  | .addr l => if d = ip then s.jump (lineOf code l) else s.put d (s.value code (.addr l))
  | o => s.put d (s.value code o)

/-- One instruction, with what a device delivers if it is asked. Nothing comes behind a `halt`. -/
def exec (code : List Line) (input : BitVec 32) (s : Cpu) : Instr → Option Cpu
  | .mov d o => some (s.move code d o)
  | .alu op d a b => some (s.put d (op.eval (s.regs a) (s.value code b)))
  | .complement d a => some (s.put d (~~~s.regs a))
  | .cmp op d a b => some (s.put d (op.flag (s.regs a) (s.regs b)))
  | .movZero d c o => some (if s.regs c = 0 then s.move code d o else s.next)
  | .movNonzero d c o => some (if s.regs c = 0 then s.next else s.move code d o)
  | .load d a => some (s.put d (s.memory (s.regs a)))
  | .store a r => some (s.setMemory (s.regs a) (s.regs r)).next
  | .device op r => some (if op.delivers then s.put r input else s.next)
  | .halt => none

/-- One line. Data and text of another kind cannot be run. -/
def step (code : List Line) (input : BitVec 32) (s : Cpu) : Option Cpu :=
  match code[s.pc]? with
  | some (.instr i) => s.exec code input i
  | some (.label _) | some (.comment _) | some .blank => some s.next
  | _ => none

/-- The state after a number of lines. -/
def run (code : List Line) (inputs : Nat → BitVec 32) (s : Cpu) : Nat → Option Cpu
  | 0 => some s
  | n + 1 => (run code inputs s n).bind (step code (inputs n))

/-- The processor gets from one state to another whatever the devices deliver. -/
def Leads (code : List Line) (s t : Cpu) : Prop := ∀ inputs, ∃ n, run code inputs s n = some t

/-! ### Composing runs -/

variable {code : List Line} {s t u : Cpu}

theorem run_add (inputs : Nat → BitVec 32) (s : Cpu) (m n : Nat) : run code inputs s (m + n) =
    (run code inputs s m).bind fun t => run code (fun k => inputs (m + k)) t n := by
  induction n with
  | zero => simp [run]
  | succ n ih =>
    rw [← Nat.add_assoc, run, ih, Option.bind_assoc]
    rfl

theorem Leads.refl (s : Cpu) : Leads code s s := fun _ => ⟨0, rfl⟩

theorem Leads.trans (h₁ : Leads code s t) (h₂ : Leads code t u) : Leads code s u := by
  intro inputs
  obtain ⟨m, hm⟩ := h₁ inputs
  obtain ⟨n, hn⟩ := h₂ fun k => inputs (m + k)
  refine ⟨m + n, ?_⟩
  rw [run_add, hm]
  exact hn

theorem Leads.of_step (h : ∀ input, step code input s = some t) : Leads code s t := by
  intro inputs
  refine ⟨1, ?_⟩
  show (some s).bind (step code (inputs 0)) = some t
  exact h (inputs 0)

end Cpu

/-! ### Lines in their place -/

/-- The lines, or other parts, of a list stand in a longer one from a position on. -/
def Placed {α : Type} (code : List α) (pos : Nat) (ls : List α) : Prop := ls <+: code.drop pos

namespace Placed

variable {α : Type} {code ls ls' : List α} {pos : Nat} {l : α}

theorem append (h : Placed code pos (ls ++ ls')) :
    Placed code pos ls ∧ Placed code (pos + ls.length) ls' := by
  obtain ⟨rest, hrest⟩ := h
  refine ⟨⟨ls' ++ rest, ?_⟩, ⟨rest, ?_⟩⟩
  · rw [← List.append_assoc]
    exact hrest
  · rw [← List.drop_drop, ← hrest, List.append_assoc, List.drop_left]

theorem get (h : Placed code pos ls) {i : Nat} (hi : i < ls.length) :
    code[pos + i]? = some ls[i] := by
  obtain ⟨rest, hrest⟩ := h
  rw [← List.getElem?_drop, ← hrest, List.getElem?_append_left hi, List.getElem?_eq_getElem hi]

theorem head (h : Placed code pos (l :: ls)) : code[pos]? = some l := h.get (Nat.zero_lt_succ _)

theorem tail (h : Placed code pos (l :: ls)) : Placed code (pos + 1) ls :=
  (append (show Placed code pos ([l] ++ ls) from h)).2

/-- A label that is placed here and nowhere before. -/
theorem lineOf_eq {code ls : List Line} {label : Label} (h : Placed code pos ls)
    (hlabel : .label label ∈ ls) (hbefore : .label label ∉ code.take pos) :
    lineOf code label = pos + ls.idxOf (.label label) := by
  obtain ⟨rest, hrest⟩ := h
  have hpos : pos ≤ code.length := by
    by_cases hle : pos ≤ code.length
    · exact hle
    · rw [List.drop_eq_nil_of_le (by omega)] at hrest
      simp_all
  unfold lineOf
  rw [← List.take_append_drop pos code, ← hrest, List.idxOf_append, if_neg hbefore,
    List.idxOf_append, if_pos hlabel, List.length_take, Nat.min_eq_left hpos, Nat.add_comm]

end Placed

/-! ### Straight code -/

def Operand.isAddress : Operand → Bool
  | reg _ | imm _ => false
  | addr _ => true

/-- Instructions that work on registers alone and go on with the line behind them. -/
def Instr.straight : Instr → Bool
  | mov d o | alu _ d _ o | movZero d _ o | movNonzero d _ o => d != ip && !o.isAddress
  | complement d _ | cmp _ d _ _ => d != ip
  | _ => false

namespace Cpu

variable {code : List Line} {s : Cpu} {i : Instr} {d : Reg}

@[simp] theorem next_regs (s : Cpu) : s.next.regs = s.regs := rfl

@[simp] theorem next_pc (s : Cpu) : s.next.pc = s.pc + 1 := rfl

@[simp] theorem jump_regs (s : Cpu) (n : Nat) : (s.jump n).regs = s.regs := rfl

@[simp] theorem jump_pc (s : Cpu) (n : Nat) : (s.jump n).pc = n := rfl

@[simp] theorem setReg_regs (s : Cpu) (d : Reg) (v : BitVec 32) (r : Reg) :
    (s.setReg d v).regs r = if r = d then v else s.regs r := rfl

@[simp] theorem setReg_pc (s : Cpu) (d : Reg) (v : BitVec 32) : (s.setReg d v).pc = s.pc := rfl

theorem put_eq (h : d ≠ ip) (v : BitVec 32) : s.put d v = (s.setReg d v).next := if_neg h

/-- What an instruction does that looks neither at the listing nor at a device. -/
def after (s : Cpu) (i : Instr) : Cpu := (s.exec [] 0 i).getD s

theorem move_eq (h : d ≠ ip) {o : Operand} (ho : o.isAddress = false) :
    s.move code d o = (s.setReg d (s.value [] o)).next := by
  cases o with
  | reg r => exact put_eq h _
  | imm n => exact put_eq h _
  | addr l => cases ho

theorem value_eq {o : Operand} (ho : o.isAddress = false) : s.value code o = s.value [] o := by
  cases o with
  | reg r | imm n => rfl
  | addr l => cases ho

theorem exec_straight (h : i.straight = true) (input : BitVec 32) :
    s.exec code input i = some (s.after i) := by
  cases i with
  | mov d o | movZero d r o | movNonzero d r o =>
    obtain ⟨hd, ho⟩ : d ≠ ip ∧ o.isAddress = false := by simpa [Instr.straight] using h
    simp [after, exec, move_eq hd ho]
  | alu op d a o =>
    obtain ⟨-, ho⟩ : d ≠ ip ∧ o.isAddress = false := by simpa [Instr.straight] using h
    simp [after, exec, value_eq ho]
  | complement d a => rfl
  | cmp op d a b => rfl
  | load | store | device | halt => cases h

theorem after_pc (h : i.straight = true) : (s.after i).pc = s.pc + 1 := by
  cases i with
  | mov d o =>
    obtain ⟨hd, ho⟩ : d ≠ ip ∧ o.isAddress = false := by simpa [Instr.straight] using h
    simp [after, exec, move_eq hd ho]
  | movZero d r o | movNonzero d r o =>
    obtain ⟨hd, ho⟩ : d ≠ ip ∧ o.isAddress = false := by simpa [Instr.straight] using h
    by_cases hz : s.regs r = 0#32 <;> simp [after, exec, move_eq hd ho, hz]
  | alu op d a o =>
    obtain ⟨hd, -⟩ : d ≠ ip ∧ o.isAddress = false := by simpa [Instr.straight] using h
    simp [after, exec, put_eq hd]
  | complement d a | cmp op d a b =>
    have hd : d ≠ ip := by simpa [Instr.straight] using h
    simp [after, exec, put_eq hd]
  | load | store | device | halt => cases h

/-! What a register holds behind an instruction. -/

@[simp] theorem value_reg (r : Reg) : s.value code (.reg r) = s.regs r := rfl

@[simp] theorem value_imm (n : Int) : s.value code (.imm n) = BitVec.ofInt 32 n := rfl

section After

variable {a b : Reg} (hd : d ≠ ip) (r : Reg)

include hd

theorem after_mov {n : Int} : (s.after (.mov d (.imm n))).regs r = if r = d then BitVec.ofInt 32 n
    else s.regs r := by
  simp [after, exec, move_eq hd (o := .imm n) rfl]

theorem after_alu {op : AluOp} : (s.after (.alu op d a (.reg b))).regs r = if r = d
    then op.eval (s.regs a) (s.regs b) else s.regs r := by
  simp [after, exec, put_eq hd]

theorem after_cmp {op : CmpOp} : (s.after (.cmp op d a b)).regs r = if r = d
    then op.flag (s.regs a) (s.regs b) else s.regs r := by
  simp [after, exec, put_eq hd]

theorem after_movZero : (s.after (.movZero d a (.reg b))).regs r = if r = d ∧ s.regs a = 0
    then s.regs b else s.regs r := by
  by_cases ha : s.regs a = 0#32 <;> simp [after, exec, move_eq hd (o := .reg b) rfl, ha]

theorem after_movNonzero : (s.after (.movNonzero d a (.reg b))).regs r = if r = d ∧ s.regs a ≠ 0
    then s.regs b else s.regs r := by
  by_cases ha : s.regs a = 0#32 <;> simp [after, exec, move_eq hd (o := .reg b) rfl, ha]

end After

theorem step_instr (h : code[s.pc]? = some (.instr i)) (input : BitVec 32) :
    step code input s = s.exec code input i := by
  unfold step
  rw [h]

theorem leads_label {l : Label} (h : code[s.pc]? = some (.label l)) : Leads code s s.next := by
  refine Leads.of_step fun input => ?_
  unfold step
  rw [h]

/-- Straight code does what its instructions do one after the other. -/
theorem leads_straight {is : List Instr} (h : Placed code s.pc (is.map .instr))
    (hs : is.all Instr.straight = true) :
    Leads code s (is.foldl after s) ∧ (is.foldl after s).pc = s.pc + is.length := by
  induction is generalizing s with
  | nil => exact ⟨Leads.refl s, rfl⟩
  | cons i is ih =>
    obtain ⟨hi, his⟩ : i.straight = true ∧ is.all Instr.straight = true := by simpa using hs
    have hpc : (s.after i).pc = s.pc + 1 := after_pc hi
    have hrest : Placed code (s.after i).pc (is.map .instr) := hpc ▸ h.tail
    obtain ⟨hleads, hend⟩ := ih hrest his
    refine ⟨(Leads.of_step fun input => ?_).trans hleads, ?_⟩
    · rw [step_instr h.head, exec_straight hi]
    · show (is.foldl after (s.after i)).pc = s.pc + (is.length + 1)
      omega

/-! ### Jumps -/

theorem leads_jump {l : Label} (h : code[s.pc]? = some (.instr (.mov ip (.addr l)))) :
    Leads code s (s.jump (lineOf code l)) := by
  refine Leads.of_step fun input => ?_
  rw [step_instr h]
  rfl

theorem leads_jumpIfNonzero {l : Label} {r : Reg}
    (h : code[s.pc]? = some (.instr (.movNonzero ip r (.addr l)))) :
    Leads code s (if s.regs r = 0 then s.next else s.jump (lineOf code l)) := by
  refine Leads.of_step fun input => ?_
  rw [step_instr h]
  rfl

end Cpu

end WordC.Asm
