import Mathlib.Algebra.Group.Nat.Defs
import WordC.Proofs.StackHeight
import WordC.Proofs.TestCode

/-!
# Multiplication, division and remainder by loops

The processor adds and subtracts only, so the code of `*` adds the left operand as often as the
right one says, and the code of `/` and `%` subtracts the right operand from the left one as often
as it fits. The loops are run here for all operands at once: each round keeps an invariant and makes
a number smaller, so the code comes to its end and leaves the product modulo `2 ^ 32`, the quotient
or the remainder, with zero for both where the divisor is zero. Apart from the temporaries that the
operator draws nothing is changed.
-/

namespace WordC

open Asm Compile

namespace Asm.Cpu

variable {code : List Line} {s t u : Cpu} {i : Instr} {d r : Reg}

theorem leads_jumpIfZero {l : Label} (h : code[s.pc]? = some (.instr (.movZero ip r (.addr l)))) :
    Leads code s (if s.regs r = 0 then s.jump (lineOf code l) else s.next) := by
  refine Leads.of_step fun input => ?_
  rw [step_instr h]
  rfl

/-! ### What stays as it was -/

/-- Only the given registers have changed. -/
structure ChangesOnly (T : List Reg) (s t : Cpu) : Prop where
  regs : ∀ q, q ∉ T → t.regs q = s.regs q
  memory : t.memory = s.memory

theorem ChangesOnly.refl (T : List Reg) (s : Cpu) : ChangesOnly T s s := ⟨fun _ _ => rfl, rfl⟩

variable {T : List Reg} {is : List Instr}

theorem ChangesOnly.trans (h : ChangesOnly T s t) (h' : ChangesOnly T t u) : ChangesOnly T s u :=
  ⟨fun q hq => (h'.regs q hq).trans (h.regs q hq), h'.memory.trans h.memory⟩

/-- A step from line to line that leaves registers and memory alone. -/
theorem ChangesOnly.going (h : ChangesOnly T s t) {pc : Nat} : ChangesOnly T s { t with pc } :=
  ⟨h.regs, h.memory⟩

/-- Straight code that writes the given registers only. -/
def Writes (T : List Reg) (is : List Instr) : Prop :=
  ∀ i ∈ is, i.straight = true ∧ ∃ d ∈ T, i.target? = some d

theorem Writes.straight (h : Writes T is) : is.all Instr.straight = true :=
  List.all_eq_true.mpr fun i hi => (h i hi).1

theorem Writes.changesOnly (h : Writes T is) (s : Cpu) : ChangesOnly T s (is.foldl after s) := by
  induction is generalizing s with
  | nil => exact .refl T s
  | cons i is ih =>
    obtain ⟨⟨hi, d, hd, htarget⟩, his⟩ := List.forall_mem_cons.mp h
    have hexec : s.exec [] 0 i = some (s.after i) := exec_straight hi 0
    have hstep : ChangesOnly T s (s.after i) := by
      refine ⟨fun q hq => exec_regs hexec fun heq => hq ?_, exec_memory hexec ?_⟩
      · rw [htarget, Option.some.injEq] at heq
        exact heq ▸ hd
      · exact Instr.isStore_of_target htarget
    exact hstep.trans (ih his (s.after i))

theorem leads_writes (h : Writes T is) (hplaced : Placed code s.pc (is.map .instr)) :
    Leads code s (is.foldl after s) ∧ (is.foldl after s).pc = s.pc + is.length ∧
    ChangesOnly T s (is.foldl after s) := by
  obtain ⟨hleads, hpc⟩ := leads_straight hplaced h.straight
  exact ⟨hleads, hpc, h.changesOnly s⟩

theorem after_copy (hd : d ≠ ip) {a : Reg} (r : Reg) :
    (s.after (.mov d (.reg a))).regs r = if r = d then s.regs a else s.regs r := by
  simp [after, exec, move_eq hd (o := .reg a) rfl]

end Asm.Cpu

/-! ### The code in full -/

/-- Leaves a loop when a register is zero, or when it is not. -/
def loopExit (onZero : Bool) (r : Reg) (done : Label) : Instr :=
  if onZero then .movZero ip r (.addr done) else .movNonzero ip r (.addr done)

/-- A loop with its test between two straight parts. -/
def loopCode (head : List Instr) (onZero : Bool) (r : Reg) (body : List Instr)
    (again done : Label) : List Line :=
  .label again :: (head.map .instr ++ .instr (loopExit onZero r done) ::
    (body.map .instr ++ [.instr (.mov ip (.addr again)), .label done]))

theorem length_loopCode (head body : List Instr) (onZero : Bool) (r : Reg) (again done : Label) :
    (loopCode head onZero r body again done).length = head.length + body.length + 4 := by
  simp [loopCode]
  omega

section Loops

open Cpu

variable {code : List Line} {T : List Reg} {head body : List Instr} {onZero : Bool} {r : Reg}
  {again done : Label} {s : Cpu}

theorem leads_loopExit (h : code[s.pc]? = some (.instr (loopExit onZero r done))) :
    Leads code s (if onZero = true ↔ s.regs r = 0 then s.jump (lineOf code done) else s.next) := by
  cases onZero with
  | true => simpa using leads_jumpIfZero h
  | false =>
    have hleads := leads_jumpIfNonzero h
    by_cases hr : s.regs r = 0 <;> simp_all

/-- One round leaves the loop behind its test, or comes back to its start. -/
theorem loop_round (hhead : Writes T head) (hbody : Writes T body)
    (hplaced : Placed code s.pc (loopCode head onZero r body again done))
    (hagain : lineOf code again = s.pc)
    (hdone : lineOf code done = s.pc + head.length + body.length + 3) :
    let u := head.foldl after s.next
    ∃ t, Leads code s t ∧ ChangesOnly T s t ∧
      if onZero = true ↔ u.regs r = 0
      then t.regs = u.regs ∧ t.pc = s.pc + head.length + body.length + 4
      else t.regs = (body.foldl after u.next).regs ∧ t.pc = s.pc := by
  intro u
  obtain ⟨hheadPlaced, hrest⟩ := hplaced.tail.append
  obtain ⟨hbodyPlaced, hends⟩ := hrest.tail.append
  rw [List.length_map] at hrest hbodyPlaced hends
  rw [List.length_map] at hends
  obtain ⟨hu, hpc, honly⟩ := leads_writes (s := s.next) hhead hheadPlaced
  have honly : ChangesOnly T s u := (ChangesOnly.refl T s).going.trans honly
  have hstart : Leads code s u := (leads_label hplaced.head).trans hu
  have hexit := leads_loopExit (s := u) (hpc ▸ hrest.head)
  by_cases hleave : onZero = true ↔ u.regs r = 0
  · simp only [if_pos hleave] at hexit ⊢
    have hend : Leads code (u.jump (lineOf code done)) (u.jump (lineOf code done)).next := by
      refine leads_label (l := done) ?_
      rw [jump_pc, hdone]
      have hget := hends.tail.head
      rwa [show s.pc + 1 + head.length + 1 + body.length + 1 =
        s.pc + head.length + body.length + 3 by omega] at hget
    refine ⟨_, (hstart.trans hexit).trans hend, honly.going.going, rfl, ?_⟩
    rw [next_pc, jump_pc, hdone]
  · simp only [if_neg hleave] at hexit ⊢
    have hnext : u.next.pc = s.pc + 1 + head.length + 1 := by rw [next_pc, hpc]; rfl
    obtain ⟨hv, hpc', honly'⟩ := leads_writes (s := u.next) hbody (hnext ▸ hbodyPlaced)
    have hback :=
      leads_jump (s := body.foldl after u.next) (l := again) (by rw [hpc', hnext]; exact hends.head)
    refine ⟨_, ((hstart.trans hexit).trans hv).trans hback, ?_, rfl, hagain⟩
    exact (honly.going.trans honly').going

/-- A loop comes to its end with what its invariant says of the last round. -/
theorem loop_ends {R : Nat → (Reg → BitVec 32) → Prop} {Q : (Reg → BitVec 32) → Prop}
    (hhead : Writes T head) (hbody : Writes T body) (hlast : ∀ n u, R n u.regs →
      (onZero = true ↔ (head.foldl after u).regs r = 0) → Q (head.foldl after u).regs)
    (hmore : ∀ n u, R n u.regs → ¬(onZero = true ↔ (head.foldl after u).regs r = 0) →
      ∃ m < n, R m (body.foldl after (head.foldl after u).next).regs)
    {n : Nat} (hstart : R n s.regs)
    (hplaced : Placed code s.pc (loopCode head onZero r body again done))
    (hagain : lineOf code again = s.pc)
    (hdone : lineOf code done = s.pc + head.length + body.length + 3) :
    ∃ t, Leads code s t ∧ t.pc = s.pc + (loopCode head onZero r body again done).length ∧ Q t.regs ∧
    ChangesOnly T s t := by
  induction n using Nat.strongRecOn generalizing s with
  | ind n ih =>
    obtain ⟨t, hleads, honly, ht⟩ := loop_round hhead hbody hplaced hagain hdone
    by_cases hleave : onZero = true ↔ (head.foldl after s.next).regs r = 0
    · simp only [if_pos hleave] at ht
      refine ⟨t, hleads, ?_, ht.1 ▸ hlast n s.next hstart hleave, honly⟩
      rw [ht.2, length_loopCode]
      omega
    · simp only [if_neg hleave] at ht
      obtain ⟨hregs, hpc⟩ := ht
      obtain ⟨m, hlt, hm⟩ := hmore n s.next hstart hleave
      obtain ⟨t', hleads', hpc', hq, honly'⟩ :=
        ih m hlt (hregs ▸ hm) (hpc ▸ hplaced) (hpc ▸ hagain) (hpc ▸ hdone)
      exact ⟨t', hleads.trans hleads', by rw [hpc', hpc], hq, honly.trans honly'⟩

end Loops

namespace BinOp

/-- Adds as often as the counter says. -/
def mulCode (t : Nat → Reg) (l r : Reg) (again done : Label) : List Line :=
  [.mov (t 1) (.reg l), .mov (t 2) (.reg r), .mov (t 0) (.imm 0)].map .instr ++
    loopCode [.mov (t 3) (.imm 0)] true (t 2)
      [.alu .add (t 0) (t 0) (.reg (t 1)), .mov (t 4) (.imm 1),
      .alu .sub (t 2) (t 2) (.reg (t 4))] again done

/-- Subtracts as long as it can, and does something else in every round. -/
def subtractCode (t : Nat → Reg) (tally : List Instr) (again done : Label) : List Line :=
  loopCode [.cmp .below (t 4) (t 1) (t 2), .mov (t 5) (.imm 0)] false (t 4)
    (.alu .sub (t 1) (t 1) (.reg (t 2)) :: tally) again done

/-- The common part of division and remainder, with an answer of its own where the divisor is zero.
-/
def quotientCode (t : Nat → Reg) (start tally answer : List Instr)
    (again done failed skip : Label) : List Line :=
  start.map .instr ++ .instr (.movZero ip (t 2) (.addr failed)) ::
    (subtractCode t tally again done ++ (answer.map .instr ++
      [.instr (.mov ip (.addr skip)), .label failed, .instr (.mov (t 0) (.imm 0)), .label skip]))

def divCode (t : Nat → Reg) (l r : Reg) : Label → Label → Label → Label → List Line :=
  quotientCode t [.mov (t 1) (.reg l), .mov (t 2) (.reg r), .mov (t 0) (.imm 0),
    .mov (t 3) (.imm 0)] [.mov (t 6) (.imm 1), .alu .add (t 0) (t 0) (.reg (t 6))] []

def modCode (t : Nat → Reg) (l r : Reg) : Label → Label → Label → Label → List Line :=
  quotientCode t [.mov (t 1) (.reg l), .mov (t 2) (.reg r), .mov (t 3) (.imm 0)] []
    [.mov (t 0) (.reg (t 1))]

/-- How many temporaries the code of a loop draws, with the one of its result. -/
def loopDraws : BinOp → Nat
  | mul => 5
  | div => 7
  | mod => 6
  | _ => 0

/-- How many labels it makes. -/
def loopLabels : BinOp → Nat
  | mul => 2
  | div | mod => 4
  | _ => 0

/-- The code of a loop, with the number of its first label. -/
def loopLines (op : BinOp) (t : Nat → Reg) (l r : Reg) (number : Nat) : List Line :=
  match op with
  | mul => mulCode t l r (.minted .mulLoop number) (.minted .mulEnd (number + 1))
  | div =>
    divCode t l r (.minted .divLoop number) (.minted .divEnd (number + 1))
      (.minted .divError (number + 2)) (.minted .divSkip (number + 3))
  | mod =>
    modCode t l r (.minted .modLoop number) (.minted .modEnd (number + 1))
      (.minted .modError (number + 2)) (.minted .modSkip (number + 3))
  | _ => []

/-- The operators that are compiled to loops. -/
def isLoop : BinOp → Bool
  | mul | div | mod => true
  | _ => false

/-- What the code of a loop computes. -/
def loopValue : BinOp → Nat → Nat → Nat
  | mul, a, b => a * b % 2 ^ 32
  | div, a, b => if b = 0 then 0 else a / b
  | mod, a, b => if b = 0 then 0 else a % b
  | _, _, _ => 0

end BinOp

section Wrote

open Compiler Step

/-- The code of a loop is the one in full. -/
theorem loop_wrote {op : BinOp} (hloop : op.isLoop = true) (c : Compiler) (l r : Reg) :
    Compile.binary op (c.pool.nth 0) l r (c.wrote 1 0 []) =
      (.ok (), c.wrote op.loopDraws op.loopLabels (op.loopLines c.pool.nth l r c.labelCount)) := by
  cases op with
  | mul =>
    simp only [Compile.binary, Compile.mul, bind_apply, temp_wrote, emit_wrote, mint_wrote,
      place_wrote, jump, jumpIfZero, List.nil_append, List.cons_append]
    rfl
  | div =>
    simp only [Compile.binary, Compile.div, bind_apply, temp_wrote, emit_wrote, mint_wrote,
      place_wrote, jump, jumpIfZero, jumpIfNonzero, List.nil_append, List.cons_append]
    rfl
  | mod =>
    simp only [Compile.binary, Compile.mod, bind_apply, temp_wrote, emit_wrote, mint_wrote,
      place_wrote, jump, jumpIfZero, jumpIfNonzero, List.nil_append, List.cons_append]
    rfl
  | _ => cases hloop

end Wrote

/-! ### Running the code -/

section Runs

open Cpu BinOp

variable {p : RegPool} {l r : Reg} {code : List Line} {s : Cpu} {again done failed skip : Label}

theorem mem_temps {n i : Nat} (h : i < n) : p.nth i ∈ p.temps n :=
  List.mem_map_of_mem (List.mem_range.mpr h)

/-- Where a label stands behind straight code. -/
theorem idxOf_instrs (is : List Instr) (ls : List Line) (label : Label) :
    (is.map Line.instr ++ ls).idxOf (.label label) = is.length + ls.idxOf (.label label) := by
  rw [List.idxOf_append_of_notMem (by simp), List.length_map, Nat.add_comm]

/-- What is still to be added to a product is the left operand as often as the counter says. -/
structure Summing (p : RegPool) (x y : BitVec 32) (n : Nat) (regs : Reg → BitVec 32) : Prop where
  counter : (regs (p.nth 2)).toNat = n
  left : regs (p.nth 1) = x
  total : regs (p.nth 0) + x * regs (p.nth 2) = x * y

theorem Summing.last {x y : BitVec 32} {n : Nat} {regs : Reg → BitVec 32} (h : Summing p x y n regs)
    (hz : regs (p.nth 2) = 0) : regs (p.nth 0) = x * y := by
  have htotal := h.total
  rw [hz] at htotal
  simpa using htotal

theorem Summing.round {x y : BitVec 32} {n : Nat} {regs regs' : Reg → BitVec 32}
    (h : Summing p x y n regs) (hz : regs (p.nth 2) ≠ 0)
    (hd : regs' (p.nth 0) = regs (p.nth 0) + regs (p.nth 1)) (ha : regs' (p.nth 1) = regs (p.nth 1))
    (hn : regs' (p.nth 2) = regs (p.nth 2) - 1) : ∃ m < n, Summing p x y m regs' := by
  have hcounter := h.counter
  have hpos : 1 ≤ (regs (p.nth 2)).toNat :=
    Nat.one_le_iff_ne_zero.mpr fun heq => hz (BitVec.eq_of_toNat_eq heq)
  have hless : (regs (p.nth 2) - 1).toNat = n - 1 := by
    rw [BitVec.toNat_sub_of_le hpos, hcounter]
    rfl
  refine ⟨n - 1, by omega, hn ▸ hless, ha.trans h.left, ?_⟩
  calc regs' (p.nth 0) + x * regs' (p.nth 2)
      = regs (p.nth 0) + x + x * (regs (p.nth 2) - 1) := by rw [hd, hn, h.left]
    _ = regs (p.nth 0) + x * regs (p.nth 2) := by grind
    _ = x * y := h.total

/-- The multiplication adds up. -/
theorem leads_mulCode (h : p.Fresh 5 [l, r])
    (hplaced : Placed code s.pc (mulCode p.nth l r again done))
    (hagain : .label again ∉ code.take s.pc)
    (hdone : .label done ∉ code.take s.pc) (hne : again ≠ done) :
    ∃ t, Leads code s t ∧ t.pc = s.pc + (mulCode p.nth l r again done).length ∧
      t.regs (p.nth 0) = s.regs l * s.regs r ∧ ChangesOnly (p.temps 5) s t := by
  have hip := p.nth_ne_ip h.turning
  have hr (i : Nat) (hi : i < 5) : r ≠ p.nth i := h.used_ne (by simp) hi
  have hmem (i : Nat) (hi : i < 5) : p.nth i ∈ p.temps 5 := mem_temps hi
  have hagainLine : lineOf code again = s.pc + 3 := by
    rw [hplaced.lineOf_eq (by simp [mulCode, loopCode]) hagain, mulCode, idxOf_instrs]
    simp [loopCode]
  have hdoneLine : lineOf code done = s.pc + 10 := by
    rw [hplaced.lineOf_eq (by simp [mulCode, loopCode]) hdone, mulCode, idxOf_instrs]
    simp [loopCode, hne]
  have hstart : Writes (p.temps 5) [.mov (p.nth 1) (.reg l), .mov (p.nth 2) (.reg r),
        .mov (p.nth 0) (.imm 0)] := by
    simp [Writes, Instr.straight, Operand.isAddress, Instr.target?, hip, hmem]
  have hhead : Writes (p.temps 5) [.mov (p.nth 3) (.imm 0)] := by
    simp [Writes, Instr.straight, Operand.isAddress, Instr.target?, hip, hmem]
  have hbody :
      Writes (p.temps 5) [.alu .add (p.nth 0) (p.nth 0) (.reg (p.nth 1)), .mov (p.nth 4) (.imm 1),
      .alu .sub (p.nth 2) (p.nth 2) (.reg (p.nth 4))] := by
    simp [Writes, Instr.straight, Operand.isAddress, Instr.target?, hip, hmem]
  obtain ⟨hstartPlaced, hloop⟩ := hplaced.append
  obtain ⟨hu, hpc, honly⟩ := leads_writes hstart hstartPlaced
  obtain ⟨t, ht, htpc, hd, honly'⟩ :=
    loop_ends (R := Summing p (s.regs l) (s.regs r)) (n := (s.regs r).toNat)
    (Q := fun regs => regs (p.nth 0) = s.regs l * s.regs r) hhead hbody
    (fun n u hsum hzero => by
      have hz : u.regs (p.nth 2) = 0 := by simpa [after_mov, hip, h.nth_eq_nth] using hzero
      simpa [after_mov, hip, h.nth_eq_nth] using hsum.last hz)
    (fun n u hsum hmore => by
      have hz : u.regs (p.nth 2) ≠ 0 := by simpa [after_mov, hip, h.nth_eq_nth] using hmore
      apply hsum.round hz <;> simp [after_mov, after_alu, AluOp.eval, hip, h.nth_eq_nth])
    ⟨by simp [after_mov, after_copy, hip, hr, h.nth_eq_nth],
      by simp [after_mov, after_copy, hip, h.nth_eq_nth],
      by simp [after_mov, after_copy, hip, hr, h.nth_eq_nth]⟩
    (hpc ▸ hloop) (by rw [hagainLine, hpc]; rfl) (by rw [hdoneLine, hpc]; rfl)
  refine ⟨t, hu.trans ht, ?_, hd, honly.trans honly'⟩
  rw [htpc, hpc, mulCode, List.length_append, List.length_map, Nat.add_assoc]

/-- The parts in which division and remainder differ: `J` is what the register of the result holds
after a number of rounds, and `value` the answer to a quotient and a remainder. -/
structure Divides (p : RegPool) (n : Nat) (l r : Reg) (start tally answer : List Instr)
    (J : Nat → BitVec 32 → Prop) (value : Nat → Nat → Nat) : Prop where
  start_writes : Writes (p.temps n) start
  start_left : ∀ u : Cpu, (start.foldl after u).regs (p.nth 1) = u.regs l
  start_right : ∀ u : Cpu, (start.foldl after u).regs (p.nth 2) = u.regs r
  start_count : ∀ u : Cpu, J 0 ((start.foldl after u).regs (p.nth 0))
  tally_writes : Writes (p.temps n) tally
  tally_left : ∀ u : Cpu, (tally.foldl after u).regs (p.nth 1) = u.regs (p.nth 1)
  tally_right : ∀ u : Cpu, (tally.foldl after u).regs (p.nth 2) = u.regs (p.nth 2)
  tally_count : ∀ (k : Nat) (u : Cpu), k + 1 < 2 ^ 32 → J k (u.regs (p.nth 0)) →
    J (k + 1) ((tally.foldl after u).regs (p.nth 0))
  answer_writes : Writes (p.temps n) answer
  answer_value : ∀ (q : Nat) (u : Cpu), J q (u.regs (p.nth 0)) →
    ((answer.foldl after u).regs (p.nth 0)).toNat = value q (u.regs (p.nth 1)).toNat

/-- What is left of the dividend, with the rounds it took. -/
structure Subtracting (p : RegPool) (J : Nat → BitVec 32 → Prop) (x y : BitVec 32) (n : Nat)
    (regs : Reg → BitVec 32) : Prop where
  left : (regs (p.nth 1)).toNat = n
  right : regs (p.nth 2) = y
  rounds : ∃ k, n + k * y.toNat = x.toNat ∧ J k (regs (p.nth 0))

section Subtraction

variable {n m : Nat} {start tally answer : List Instr} {J : Nat → BitVec 32 → Prop}
  {value : Nat → Nat → Nat}
  {x y : BitVec 32} {regs regs' : Reg → BitVec 32}

theorem Subtracting.last (h : Subtracting p J x y n regs) (hlt : regs (p.nth 1) < regs (p.nth 2)) :
    (regs (p.nth 1)).toNat = x.toNat % y.toNat ∧ J (x.toNat / y.toNat) (regs (p.nth 0)) := by
  obtain ⟨k, hk, hcount⟩ := h.rounds
  have hlt : n < y.toNat := by
    rw [← h.left, ← h.right]
    exact hlt
  have hdiv : x.toNat / y.toNat = k := by
    rw [← hk, Nat.add_mul_div_right _ _ (by omega), Nat.div_eq_of_lt hlt, Nat.zero_add]
  have hmod : x.toNat % y.toNat = n := by
    rw [← hk, Nat.add_mul_mod_self_right, Nat.mod_eq_of_lt hlt]
  exact ⟨h.left.trans hmod.symm, hdiv ▸ hcount⟩

theorem Subtracting.round (h : Subtracting p J x y n regs) (hy : y ≠ 0)
    (hle : ¬regs (p.nth 1) < regs (p.nth 2))
    (ha : regs' (p.nth 1) = regs (p.nth 1) - regs (p.nth 2)) (hb : regs' (p.nth 2) = regs (p.nth 2))
    (hd : ∀ k, k + 1 < 2 ^ 32 → J k (regs (p.nth 0)) → J (k + 1) (regs' (p.nth 0))) :
    ∃ m < n, Subtracting p J x y m regs' := by
  obtain ⟨k, hk, hcount⟩ := h.rounds
  have hpos : 0 < y.toNat := Nat.pos_of_ne_zero fun heq => hy (BitVec.eq_of_toNat_eq heq)
  have hle : y ≤ regs (p.nth 1) := by
    rw [← h.right]
    exact BitVec.not_lt.mp hle
  have hsub : (regs' (p.nth 1)).toNat = n - y.toNat := by
    rw [ha, h.right, BitVec.toNat_sub_of_le hle, h.left]
  have hfits : y.toNat ≤ n := h.left ▸ hle
  have hrounds : n - y.toNat + (k + 1) * y.toNat = x.toNat := by
    rw [Nat.succ_mul]
    omega
  have hk' : k + 1 ≤ (k + 1) * y.toNat := Nat.le_mul_of_pos_right _ hpos
  exact ⟨n - y.toNat, by omega, hsub, hb.trans h.right, k + 1, hrounds, hd k (by omega) hcount⟩

theorem leads_subtractCode (hfresh : p.Fresh n [l, r]) (hn : 6 ≤ n)
    (h : Divides p n l r start tally answer J value) (hzero : s.regs (p.nth 2) ≠ 0)
    (hcount : J 0 (s.regs (p.nth 0)))
    (hplaced : Placed code s.pc (subtractCode p.nth tally again done))
    (hagain : lineOf code again = s.pc) (hdone : lineOf code done = s.pc + tally.length + 6) :
    ∃ t, Leads code s t ∧ t.pc = s.pc + tally.length + 7 ∧
      ((t.regs (p.nth 1)).toNat = (s.regs (p.nth 1)).toNat % (s.regs (p.nth 2)).toNat ∧
        J ((s.regs (p.nth 1)).toNat / (s.regs (p.nth 2)).toNat) (t.regs (p.nth 0))) ∧
        ChangesOnly (p.temps n) s t := by
  have hip := p.nth_ne_ip hfresh.turning
  have heq (i j : Nat) (hi : i < 6) (hj : j < 6) : p.nth i = p.nth j ↔ i = j :=
    hfresh.nth_eq_nth (by omega) (by omega)
  have hmem (i : Nat) (hi : i < 6) : p.nth i ∈ p.temps n := mem_temps (by omega)
  have hhead :
      Writes (p.temps n) [.cmp .below (p.nth 4) (p.nth 1) (p.nth 2), .mov (p.nth 5) (.imm 0)] := by
    simp [Writes, Instr.straight, Operand.isAddress, Instr.target?, hip, hmem]
  have hbody : Writes (p.temps n) (.alu .sub (p.nth 1) (p.nth 1) (.reg (p.nth 2)) :: tally) := by
    refine List.forall_mem_cons.mpr ⟨?_, h.tally_writes⟩
    simp [Instr.straight, Operand.isAddress, Instr.target?, hip, hmem]
  have hflag (u : Cpu) :
      (false = true ↔ ([.cmp .below (p.nth 4) (p.nth 1) (p.nth 2), .mov (p.nth 5) (.imm 0)].foldl
      after u).regs (p.nth 4) = 0) ↔ u.regs (p.nth 1) < u.regs (p.nth 2) := by
    by_cases hlt : u.regs (p.nth 1) < u.regs (p.nth 2) <;>
      simp [after_cmp, after_mov, CmpOp.flag, CmpOp.holds, hip, heq, hlt]
  obtain ⟨t, ht, hpc, hq, honly⟩ :=
    loop_ends (R := Subtracting p J (s.regs (p.nth 1)) (s.regs (p.nth 2)))
    (Q := fun regs => (regs (p.nth 1)).toNat = (s.regs (p.nth 1)).toNat % (s.regs (p.nth 2)).toNat ∧
        J ((s.regs (p.nth 1)).toNat / (s.regs (p.nth 2)).toNat) (regs (p.nth 0))) hhead hbody
    (fun n u hsub
      hleave => by simpa [after_cmp, after_mov, hip, heq] using hsub.last ((hflag u).mp hleave))
    (fun n u hsub hmore => by
      refine hsub.round hzero (fun hlt => hmore ((hflag u).mpr hlt)) ?_ ?_ fun k hk hcount => ?_
      · simp [h.tally_left, after_cmp, after_mov, after_alu, AluOp.eval, hip, heq]
      · simp [h.tally_right, after_cmp, after_mov, after_alu, hip, heq]
      · rw [List.foldl_cons]
        apply h.tally_count k _ hk
        simpa [after_cmp, after_mov, after_alu, hip, heq] using hcount)
    ⟨rfl, rfl, 0, by simp, hcount⟩ hplaced hagain
      (by rw [hdone, List.length_cons, List.length_cons]; simp; omega)
  refine ⟨t, ht, ?_, hq, honly⟩
  rw [hpc, length_loopCode]
  simp
  omega

/-- The four labels of a division stand where the code places them. -/
theorem lineOf_quotientCode
    (hplaced : Placed code s.pc (quotientCode p.nth start tally answer again done failed skip))
    (hbefore : ∀ label ∈ [again, done, failed, skip], .label label ∉ code.take s.pc)
    (hnodup : [again, done, failed, skip].Nodup) : lineOf code again = s.pc + start.length + 1 ∧
    lineOf code done = s.pc + start.length + tally.length + 7 ∧
      lineOf code failed = s.pc + start.length + tally.length + answer.length + 9 ∧
      lineOf code skip = s.pc + start.length + tally.length + answer.length + 11 := by
  simp only [List.nodup_cons, List.mem_cons, List.not_mem_nil, or_false, not_or] at hnodup
  have hlines (label : Label) (hlabel : label ∈ [again, done, failed, skip]) :
      lineOf code label = s.pc +
      (quotientCode p.nth start tally answer again done failed skip).idxOf (.label label) := by
    refine hplaced.lineOf_eq ?_ (hbefore label hlabel)
    simp only [List.mem_cons, List.not_mem_nil, or_false] at hlabel
    rcases hlabel with rfl | rfl | rfl | rfl <;> simp [quotientCode, subtractCode, loopCode]
  refine ⟨?_, ?_, ?_, ?_⟩ <;> rw [hlines _ (by simp)] <;>
    simp [quotientCode, subtractCode, loopCode, idxOf_instrs, hnodup] <;> omega

/-- The parts of a division in their places. -/
theorem placed_quotientCode {pos : Nat}
    (h : Placed code pos (quotientCode p.nth start tally answer again done failed skip)) :
    Placed code pos (start.map .instr) ∧
      code[pos + start.length]? = some (.instr (.movZero ip (p.nth 2) (.addr failed))) ∧
      Placed code (pos + start.length + 1) (subtractCode p.nth tally again done) ∧
      Placed code (pos + start.length + tally.length + 8) (answer.map .instr) ∧
      Placed code (pos + start.length + tally.length + answer.length + 8)
        [.instr (.mov ip (.addr skip)), .label failed, .instr (.mov (p.nth 0) (.imm 0)),
          .label skip] := by
  obtain ⟨hstart, hrest⟩ := h.append
  obtain ⟨hloop, hbehind⟩ := hrest.tail.append
  obtain ⟨hanswer, hends⟩ := hbehind.append
  simp only [subtractCode, length_loopCode, List.length_map, List.length_cons, List.length_nil]
    at hrest hloop hanswer hends
  have hanswerPos : pos + start.length + 1 + (0 + 1 + 1 + (tally.length + 1) + 4) =
      pos + start.length + tally.length + 8 := by
    omega
  have hendsPos : pos + start.length + tally.length + 8 + answer.length =
      pos + start.length + tally.length + answer.length + 8 := by omega
  rw [hanswerPos] at hanswer hends
  rw [hendsPos] at hends
  exact ⟨hstart, hrest.head, hloop, hanswer, hends⟩

/-- The way over the last lines for a zero divisor. -/
theorem leads_failed {pos : Nat} (hfresh : p.Fresh n [l, r]) (hn : 0 < n) (hends : Placed code pos
      [.instr (.mov ip (.addr skip)), .label failed, .instr (.mov (p.nth 0) (.imm 0)), .label skip])
      (hs : s.pc = pos + 1) :
    ∃ t, Leads code s t ∧ t.pc = pos + 4 ∧ t.regs (p.nth 0) = 0 ∧ ChangesOnly (p.temps n) s t := by
  have hip : p.nth 0 ≠ ip := p.nth_ne_ip hfresh.turning 0
  have hclear : Writes (p.temps n) [.mov (p.nth 0) (.imm 0)] := by
    simp [Writes, Instr.straight, Operand.isAddress, Instr.target?, hip, mem_temps hn]
  have hover : Leads code s s.next := leads_label (l := failed) (hs ▸ hends.tail.head)
  have hmov : Placed code (pos + 2) ([.mov (p.nth 0) (.imm 0)].map .instr) :=
    hends.tail.tail.append.1
  obtain ⟨hu, hpc, honly⟩ := leads_writes (s := s.next) hclear (by rwa [next_pc, hs])
  rw [next_pc, hs] at hpc
  have hend := leads_label (s := s.next.after (.mov (p.nth 0) (.imm 0))) (l := skip)
    (hpc ▸ hends.tail.tail.tail.head)
  refine ⟨_, (hover.trans hu).trans hend, by rw [next_pc]; exact congrArg (· + 1) hpc, ?_, ?_⟩
  · simp [after_mov hip]
  · exact ((ChangesOnly.refl _ s).going.trans honly).going

/-- The way over the last lines with an answer. -/
theorem leads_skip {pos : Nat} {d : Reg} (T : List Reg) (hends : Placed code pos
      [.instr (.mov ip (.addr skip)), .label failed, .instr (.mov d (.imm 0)), .label skip])
    (hskip : lineOf code skip = pos + 3) (hs : s.pc = pos) :
    ∃ t, Leads code s t ∧ t.pc = pos + 4 ∧ t.regs = s.regs ∧ ChangesOnly T s t := by
  have hjump := leads_jump (s := s) (l := skip) (hs ▸ hends.head)
  have hend := leads_label (s := s.jump (lineOf code skip)) (l := skip) (by
    rw [jump_pc, hskip]
    exact hends.tail.tail.tail.head)
  exact ⟨_, hjump.trans hend, by rw [next_pc, jump_pc, hskip], rfl,
    (ChangesOnly.refl T s).going.going⟩

/-- Division and remainder answer zero for a zero divisor, and come to their end with quotient and
remainder else. -/
theorem leads_quotientCode (hfresh : p.Fresh n [l, r]) (hn : 6 ≤ n)
    (h : Divides p n l r start tally answer J value)
    (hplaced : Placed code s.pc (quotientCode p.nth start tally answer again done failed skip))
    (hbefore : ∀ label ∈ [again, done, failed, skip], .label label ∉ code.take s.pc)
    (hnodup : [again, done, failed, skip].Nodup) : ∃ t, Leads code s t ∧
    t.pc = s.pc + (quotientCode p.nth start tally answer again done failed skip).length ∧
      (t.regs (p.nth 0)).toNat = (if (s.regs r).toNat = 0 then 0
        else value ((s.regs l).toNat / (s.regs r).toNat) ((s.regs l).toNat % (s.regs r).toNat)) ∧
      ChangesOnly (p.temps n) s t := by
  obtain ⟨hagain, hdone, hfailed, hskip⟩ := lineOf_quotientCode hplaced hbefore hnodup
  obtain ⟨hstart, htest, hloop, hanswer, hends⟩ := placed_quotientCode hplaced
  have hlength : (quotientCode p.nth start tally answer again done failed skip).length =
      start.length + tally.length + answer.length + 12 := by
    simp [quotientCode, subtractCode, length_loopCode]
    omega
  obtain ⟨hu, hpc, honly⟩ := leads_writes h.start_writes hstart
  have hjump := leads_jumpIfZero (hpc ▸ htest)
  rw [h.start_right] at hjump
  by_cases hzero : s.regs r = 0
  · rw [if_pos hzero] at hjump
    obtain ⟨t, ht, hpc', hd, honly'⟩ :=
      leads_failed hfresh (by omega) hends (s := (start.foldl after s).jump
      (lineOf code failed)) (by rw [jump_pc, hfailed])
    refine ⟨t, (hu.trans hjump).trans ht, by omega, ?_, honly.going.trans honly'⟩
    rw [hd, hzero]
    rfl
  · rw [if_neg hzero] at hjump
    have hpcLoop : (start.foldl after s).next.pc = s.pc + start.length + 1 := by rw [next_pc, hpc]
    obtain ⟨v, hv, hpcv, ⟨hrem, hquot⟩, honlyv⟩ :=
      leads_subtractCode (s := (start.foldl after s).next) hfresh hn h
        (by rw [next_regs, h.start_right]; exact hzero) (h.start_count s) (hpcLoop ▸ hloop)
        (by rw [hagain, hpcLoop]) (by rw [hdone, hpcLoop]; omega)
    rw [next_regs, h.start_left, h.start_right] at hrem hquot
    have hpcv : v.pc = s.pc + start.length + tally.length + 8 := by omega
    obtain ⟨hw, hpcw, honlyw⟩ := leads_writes h.answer_writes (hpcv ▸ hanswer)
    obtain ⟨t, ht, hpct, hregs, honlyt⟩ := leads_skip (p.temps n) hends hskip
      (s := answer.foldl after v) (by omega)
    refine ⟨t, (((hu.trans hjump).trans hv).trans hw).trans ht, by omega, ?_, ?_⟩
    · have hne : (s.regs r).toNat ≠ 0 := fun heq => hzero (BitVec.eq_of_toNat_eq heq)
      rw [hregs, h.answer_value _ v hquot, hrem, if_neg hne]
    · exact ((honly.going.trans honlyv).trans honlyw).trans honlyt

theorem divides_div (h : p.Fresh 7 [l, r]) : Divides p 7 l r [.mov (p.nth 1) (.reg l),
      .mov (p.nth 2) (.reg r), .mov (p.nth 0) (.imm 0), .mov (p.nth 3) (.imm 0)]
      [.mov (p.nth 6) (.imm 1), .alu .add (p.nth 0) (p.nth 0) (.reg (p.nth 6))] []
      (fun k w => w.toNat = k) fun q _ => q := by
  have hip := p.nth_ne_ip h.turning
  have hr (i : Nat) (hi : i < 7) : r ≠ p.nth i := h.used_ne (by simp) hi
  have hmem (i : Nat) (hi : i < 7) : p.nth i ∈ p.temps 7 := mem_temps hi
  constructor
  case start_writes | tally_writes | answer_writes =>
    simp [Writes, Instr.straight, Operand.isAddress, Instr.target?, hip, hmem]
  case start_left | start_right | start_count => simp [after_mov, after_copy, hip, hr, h.nth_eq_nth]
  case tally_left | tally_right => simp [after_mov, after_alu, hip, h.nth_eq_nth]
  case tally_count =>
    intro k u hlt hk
    simp [after_mov, after_alu, AluOp.eval, hip, h.nth_eq_nth]
    omega
  case answer_value => exact fun q u hq => hq

theorem divides_mod (h : p.Fresh 6 [l, r]) : Divides p 6 l r [.mov (p.nth 1) (.reg l),
      .mov (p.nth 2) (.reg r), .mov (p.nth 3) (.imm 0)] [] [.mov (p.nth 0) (.reg (p.nth 1))]
      (fun _ _ => True) fun _ m => m := by
  have hip := p.nth_ne_ip h.turning
  have hr (i : Nat) (hi : i < 6) : r ≠ p.nth i := h.used_ne (by simp) hi
  have hmem (i : Nat) (hi : i < 6) : p.nth i ∈ p.temps 6 := mem_temps hi
  constructor
  case start_writes | tally_writes | answer_writes =>
    simp [Writes, Instr.straight, Operand.isAddress, Instr.target?, hip, hmem]
  case start_left | start_right => simp [after_mov, after_copy, hip, hr, h.nth_eq_nth]
  case start_count | tally_left | tally_right | tally_count => simp
  case answer_value => simp [after_copy, hip]

end Subtraction

end Runs

/-! ### What the loops compute -/

/-- Lines that leave a number in a register and change nothing but temporaries, run in a place where
the labels from `number` on are not placed before. -/
def ComputesIn (d : Reg) (temps : List Reg) (number : Nat) (lines : List Line)
    (value : (Reg → BitVec 32) → Nat) : Prop :=
  ∀ code (s : Cpu), Placed code s.pc lines →
    (∀ stem n, number ≤ n → .label (.minted stem n) ∉ code.take s.pc) →
    ∃ t, Cpu.Leads code s t ∧ t.pc = s.pc + lines.length ∧ (t.regs d).toNat = value s.regs ∧
      (∀ q, q ∉ temps → t.regs q = s.regs q) ∧ t.memory = s.memory

theorem computesIn_loopLines {p : RegPool} {op : BinOp} {l r : Reg} (hloop : op.isLoop = true)
    (h : p.Fresh op.loopDraws [l, r]) (number : Nat) :
    ComputesIn (p.nth 0) (p.temps op.loopDraws) number (op.loopLines p.nth l r number) fun regs =>
      op.loopValue (regs l).toNat (regs r).toNat := by
  intro code s hplaced hbefore
  have hlater (k : Nat) (stem : Stem) : .label (.minted stem (number + k)) ∉ code.take s.pc :=
    hbefore stem _ (by omega)
  cases op with
  | mul =>
    obtain ⟨t, hleads, hpc, hd, honly⟩ :=
      leads_mulCode h hplaced (hlater 0 _) (hlater 1 _) (by simp)
    refine ⟨t, hleads, hpc, ?_, honly.regs, honly.memory⟩
    rw [hd, BitVec.toNat_mul]
    rfl
  | div =>
    obtain ⟨t, hleads, hpc, hd, honly⟩ :=
      leads_quotientCode h (by decide) (divides_div h) hplaced (by
      simp only [List.forall_mem_cons]
      exact ⟨hlater 0 _, hlater 1 _, hlater 2 _, hlater 3 _, List.forall_mem_nil _⟩) (by simp)
    exact ⟨t, hleads, hpc, hd, honly.regs, honly.memory⟩
  | mod =>
    obtain ⟨t, hleads, hpc, hd, honly⟩ :=
      leads_quotientCode h (by decide) (divides_mod h) hplaced (by
      simp only [List.forall_mem_cons]
      exact ⟨hlater 0 _, hlater 1 _, hlater 2 _, hlater 3 _, List.forall_mem_nil _⟩) (by simp)
    exact ⟨t, hleads, hpc, hd, honly.regs, honly.memory⟩
  | _ => cases hloop

/-- The code of `*`, `/` and `%`, compiled behind its operands and with fresh temporaries: it comes
to its end with the product modulo `2 ^ 32`, the quotient or the remainder, with zero where the
divisor is zero, and changes the temporaries only. -/
theorem loop_code_computes (op : BinOp) (hloop : op.isLoop = true) (e₁ e₂ : Expr)
    (c c₁ c₂ : Compiler) (l r : Reg) (h₁ : e₁.compile c = (.ok l, c₁))
    (h₂ : e₂.compile c₁ = (.ok r, c₂)) (hfresh : c₂.pool.Fresh op.loopDraws [l, r]) :
    ∃ lines, (Expr.binary op e₁ e₂).compile c =
    (.ok (c₂.pool.nth 0), c₂.wrote op.loopDraws op.loopLabels lines) ∧
      ComputesIn (c₂.pool.nth 0) (c₂.pool.temps op.loopDraws) c₂.labelCount lines fun regs =>
        op.loopValue (regs l).toNat (regs r).toNat := by
  refine ⟨op.loopLines c₂.pool.nth l r c₂.labelCount, ?_, computesIn_loopLines hloop hfresh _⟩
  rw [Expr.compile, Step.bind_ok h₁, Step.bind_ok h₂, Step.bind_ok (Compiler.temp_eq c₂),
    Step.bind_ok (loop_wrote hloop c₂ l r), Step.pure_apply]

/-- `23 / 7`, compiled first of all: with the operands in their registers the code comes to its end
with the quotient. -/
theorem quotient_code_computes : ∃ (c : Compiler) (lines : List Line), c.pool.Fresh 7 [1, 2] ∧
    (Expr.binary .div (.literal 23) (.literal 7)).compile {} = (.ok 3, c.wrote 7 4 lines) ∧
    ∃ t, Cpu.Leads lines ⟨fun q => if q = 1 then 23 else 7, fun _ => 0, 0⟩ t ∧ t.pc = lines.length ∧
    (t.regs 3).toNat = 3 ∧
      t.regs 1 = 23 ∧ t.regs 2 = 7 := by
  have hliteral (n : Nat) (c : Compiler) :
      (Expr.literal n).compile c = (.ok (c.pool.nth 0), ((Expr.literal n).compile c).2) := rfl
  have hfresh : ((Expr.literal 7).compile ((Expr.literal 23).compile {}).2).2.pool.Fresh 7 [1, 2] :=
    ⟨by decide, by decide, by decide⟩
  obtain ⟨lines, hcode, hcomputes⟩ := loop_code_computes .div rfl (.literal 23) (.literal
    7) {} _ _ _ _ (hliteral 23 _) (hliteral 7 _) hfresh
  obtain ⟨t, hleads, hpc, hd, hregs, -⟩ := hcomputes lines ⟨fun q =>
    if q = 1 then 23 else 7, fun _ => 0, 0⟩ (List.prefix_refl lines) (by simp)
  refine ⟨_, lines, hfresh, hcode, t, hleads, ?_, hd, ?_, ?_⟩
  · rw [hpc, Nat.zero_add]
  · exact hregs 1 (hfresh.apart 1 (by simp))
  · exact hregs 2 (hfresh.apart 2 (by simp))

end WordC
