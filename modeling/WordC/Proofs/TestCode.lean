import Mathlib.Data.List.Nodup
import WordC.Proofs.Processor
import WordC.Proofs.CompileSteps
import WordC.Proofs.WordArithmetic

/-!
# The code of comparisons and logical operators

A comparison or a logical operator becomes a fixed sequence of instructions over the temporaries
that it draws. As long as these differ from each other and from the operands, the sequence is known
in full, so that it can be run for all operands at once: `<`, `<=`, `>=` and `&&` leave what the
evaluator computes, while `==`, `>` and `!` leave zero always, `!=` leaves all ones for one, and
`||` looks at its left operand only and answers the opposite.
-/

namespace WordC

open Asm Compile

/-! ### Temporaries in advance -/

namespace RegPool

/-- The pool behind a number of draws. -/
def skip (p : RegPool) : Nat → RegPool
  | 0 => p
  | n + 1 => (p.skip n).temp.2

/-- The temporary of a later draw. -/
def nth (p : RegPool) (n : Nat) : Reg := (p.skip n).temp.1

/-- The temporaries of the next draws. -/
def temps (p : RegPool) (n : Nat) : List Reg := (List.range n).map p.nth

theorem tempAvoiding_eq {p : RegPool} {avoid : List Reg} (h : p.temp.1 ∉ avoid) (tries : Nat) :
    p.tempAvoiding avoid tries = p.temp := by
  cases tries with
  | zero => rfl
  | succ n =>
    rw [tempAvoiding]
    exact if_neg h

theorem skip_skip (p : RegPool) (m n : Nat) : (p.skip m).skip n = p.skip (m + n) := by
  induction n with
  | zero => rfl
  | succ n ih => exact congrArg (fun q => q.temp.2) ih

theorem skip_lt {p : RegPool} (h : p.nextTemp < 10) (n : Nat) : (p.skip n).nextTemp < 10 := by
  cases n with
  | zero => exact h
  | succ n => exact temp_snd_lt _

theorem nth_lt {p : RegPool} (h : p.nextTemp < 10) (n : Nat) : p.nth n < 10 := by
  have hn := skip_lt h n
  show (if (p.skip n).nextTemp = 0 then 1 else (p.skip n).nextTemp) < 10
  split <;> omega

theorem nth_ne_ip {p : RegPool} (h : p.nextTemp < 10) (n : Nat) : p.nth n ≠ ip := by
  have hn := nth_lt h n
  exact Nat.ne_of_lt (Nat.lt_trans hn (by decide))

end RegPool

/-! ### Steps that only draw, count and write -/

namespace Compiler

/-- What draws, labels and lines leave of a compiler. -/
def wrote (c : Compiler) (draws labels : Nat) (lines : List Line) : Compiler :=
  { c with
    pool := c.pool.skip draws, labelCount := c.labelCount + labels
    code := c.code ++ lines.toArray }

variable (c : Compiler) (n k : Nat) (ls : List Line)

theorem wrote_nothing : c.wrote 0 0 [] = c := by
  simp [wrote, RegPool.skip]

theorem wrote_wrote (n' k' : Nat) (ls' : List Line) :
    (c.wrote n k ls).wrote n' k' ls' = c.wrote (n + n') (k + k') (ls ++ ls') := by
  simp [wrote, RegPool.skip_skip, Nat.add_assoc]

theorem emit_wrote (i : Instr) :
    emit i (c.wrote n k ls) = (.ok (), c.wrote n k (ls ++ [.instr i])) := by
  show (Except.ok (), { c.wrote n k ls with code := (c.wrote n k ls).code.push (.instr i) }) = _
  simp [wrote]

theorem place_wrote (l : Label) :
    place l (c.wrote n k ls) = (.ok (), c.wrote n k (ls ++ [.label l])) := by
  show (Except.ok (), { c.wrote n k ls with code := (c.wrote n k ls).code.push (.label l) }) = _
  simp [wrote]

theorem temp_wrote : temp (c.wrote n k ls) = (.ok (c.pool.nth n), c.wrote (n + 1) k ls) := rfl

theorem temp_eq : temp c = (.ok (c.pool.nth 0), c.wrote 1 0 []) := by
  have hdraw := temp_wrote c 0 0 []
  rwa [wrote_nothing] at hdraw

theorem mint_wrote (stem : Stem) : mint stem (c.wrote n k ls) =
    (.ok (.minted stem (c.labelCount + k)), c.wrote n (k + 1) ls) := rfl

theorem tempAvoiding_wrote {avoid : List Reg} (h : c.pool.nth n ∉ avoid) :
    tempAvoiding avoid (c.wrote n k ls) = (.ok (c.pool.nth n), c.wrote (n + 1) k ls) := by
  have hdraw : (c.pool.skip n).tempAvoiding avoid 9 = (c.pool.skip n).temp :=
    RegPool.tempAvoiding_eq h 9
  show (Except.ok ((c.pool.skip n).tempAvoiding avoid 9).1,
    { c.wrote n k ls with pool := ((c.pool.skip n).tempAvoiding avoid 9).2 }) = _
  rw [hdraw]
  rfl

end Compiler

/-- The next draws give registers that differ from each other, from the used ones and from the
register of the next instruction. -/
structure RegPool.Fresh (p : RegPool) (n : Nat) (used : List Reg) : Prop where
  turning : p.nextTemp < 10
  nodup : (p.temps n).Nodup
  apart : ∀ r ∈ used, r ∉ p.temps n

namespace RegPool.Fresh

variable {p : RegPool} {n : Nat} {used : List Reg} {i j : Nat} {r : Reg}

theorem nth_eq_nth (h : p.Fresh n used) (hi : i < n) (hj : j < n) : p.nth i = p.nth j ↔ i = j := by
  have hinj := List.inj_on_of_nodup_map (show ((List.range n).map p.nth).Nodup from h.nodup)
  exact ⟨hinj (List.mem_range.mpr hi) (List.mem_range.mpr hj), congrArg p.nth⟩

theorem used_ne (h : p.Fresh n used) (hr : r ∈ used) (hi : i < n) : r ≠ p.nth i := by
  intro heq
  exact h.apart r hr (heq ▸ List.mem_map_of_mem (List.mem_range.mpr hi))

end RegPool.Fresh

/-! ### The code in full -/

namespace BinOp

/-- How many temporaries the code of a test draws, with the one of its result. -/
def draws : BinOp → Nat
  | equal | notEqual | greater => 2
  | less | greaterEqual | logicalOr => 3
  | lessEqual => 4
  | logicalAnd => 5
  | _ => 1

/-- How many labels it makes. -/
def labels : BinOp → Nat
  | logicalAnd => 1
  | _ => 0

/-- The code of a test that makes no label, over its temporaries. The result is in the first. -/
def code (op : BinOp) (t : Nat → Reg) (l r : Reg) : List Instr :=
  match op with
  | equal => flagCode .equal true t l r
  | notEqual => flagCode .equal false t l r
  | greater => flagCode .above true t l r
  | less => [.cmp .below (t 0) l r, .mov (t 2) (.imm 1), .movNonzero (t 0) (t 0) (.reg (t 2))]
  | lessEqual =>
    [.cmp .above (t 1) l r, .mov (t 2) (.imm 1), .mov (t 3) (.imm 0),
      .movZero (t 0) (t 1) (.reg (t 2)), .movNonzero (t 0) (t 1) (.reg (t 3))]
  | greaterEqual =>
    [.cmp .below (t 1) l r, .mov (t 0) (.imm 0), .mov (t 2) (.imm 1),
      .movZero (t 0) (t 1) (.reg (t 2))]
  | logicalOr =>
    [.mov (t 1) (.imm 0), .cmp .equal (t 0) l (t 1), .mov (t 2) (.imm 1), .movNonzero (t 0) (t 0)
      (.reg (t 2)), .cmp .equal (t 2) r (t 1), .movNonzero (t 0) (t 2) (.reg (t 0))]
  | _ => []
where
  flagCode (op : CmpOp) (onZero : Bool) (t : Nat → Reg) (l r : Reg) : List Instr :=
    [.cmp op (t 0) l r, .mov (t 1) (.imm (-1)),
      if onZero then .movZero (t 0) (t 0) (.reg (t 1)) else .movNonzero (t 0) (t 0) (.reg (t 1)),
      .alu .bitXor (t 0) (t 0) (.reg (t 1))]

/-- Goes to a label when an operand is zero. -/
def exitIfZero (flag a z : Reg) (done : Label) : List Line :=
  [.instr (.cmp .equal flag a z), .instr (.movNonzero ip flag (.addr done))]

/-- The code of `&&` behind its left operand. -/
def andRight (t : Nat → Reg) (r : Reg) (done : Label) : List Line :=
  exitIfZero (t 3) r (t 1) done ++ ([.mov (t 4) (.imm 1), .mov (t 0) (.imm 1)].map .instr ++
    [.instr (.mov ip (.addr done)), .label done])

/-- The code of `&&`, which goes to its end when an operand is zero. -/
def andCode (t : Nat → Reg) (l r : Reg) (done : Label) : List Line :=
  [.mov (t 1) (.imm 0), .mov (t 0) (.imm 0)].map .instr ++
    (exitIfZero (t 2) l (t 1) done ++ andRight t r done)

/-- The code of a test, with the number of the label that it makes. -/
def lines (op : BinOp) (t : Nat → Reg) (l r : Reg) (number : Nat) : List Line :=
  match op with
  | logicalAnd => andCode t l r (.minted .andEnd number)
  | op => (op.code t l r).map .instr

/-- What the code of a test leaves in its register. -/
def leaves (op : BinOp) (a b : BitVec 32) : BitVec 32 :=
  match op with
  | equal | greater => 0
  | notEqual => if a = b then 0 else -1
  | logicalOr => truthWord (a = 0)
  | op => op.onWords a b

end BinOp

section Wrote

open Compiler Step

variable {c : Compiler} {l r : Reg}

theorem flagTest_wrote (op : CmpOp) (onZero : Bool) (h : c.pool.Fresh 2 [l, r]) :
    flagTest op onZero (c.pool.nth 0) l r (c.wrote 1 0 []) =
      (.ok (), c.wrote 2 0 ((BinOp.code.flagCode op onZero c.pool.nth l r).map .instr)) := by
  have hl : l ≠ c.pool.nth 0 := h.used_ne (by simp) (by decide)
  have hr : r ≠ c.pool.nth 0 := h.used_ne (by simp) (by decide)
  have hflag : ¬(c.pool.nth 0 = l ∨ c.pool.nth 0 = r) := not_or.mpr ⟨hl.symm, hr.symm⟩
  simp only [flagTest, flagFor, if_neg hflag, bind_apply, pure_apply, emit_wrote, temp_wrote]
  rfl

theorem less_wrote (h : c.pool.Fresh 3 [l, r]) :
    less (c.pool.nth 0) l r (c.wrote 1 0 []) =
      (.ok (), c.wrote 3 0 ((BinOp.less.code c.pool.nth l r).map .instr)) := by
  have hl : l ≠ c.pool.nth 0 := h.used_ne (by simp) (by decide)
  have hr : r ≠ c.pool.nth 0 := h.used_ne (by simp) (by decide)
  have hflag : ¬(c.pool.nth 0 = l ∨ c.pool.nth 0 = r) := not_or.mpr ⟨hl.symm, hr.symm⟩
  have hspare : c.pool.nth 1 ∉ [c.pool.nth 0] := by simp [h.nth_eq_nth]
  have hone : c.pool.nth 2 ∉ [c.pool.nth 0, c.pool.nth 1] := by simp [h.nth_eq_nth]
  simp only [less, if_neg hflag, bind_apply, emit_wrote, tempAvoiding_wrote _ _ _ _ hspare,
    tempAvoiding_wrote _ _ _ _ hone]
  rfl

theorem lessEqual_wrote :
    lessEqual (c.pool.nth 0) l r (c.wrote 1 0 []) =
      (.ok (), c.wrote 4 0 ((BinOp.lessEqual.code c.pool.nth l r).map .instr)) := by
  simp only [lessEqual, bind_apply, emit_wrote, temp_wrote]
  rfl

theorem greaterEqual_wrote (h : c.pool.Fresh 3 [l, r]) :
    greaterEqual (c.pool.nth 0) l r (c.wrote 1 0 []) =
      (.ok (), c.wrote 3 0 ((BinOp.greaterEqual.code c.pool.nth l r).map .instr)) := by
  have hused (i : Nat) (hi : i < 3) : c.pool.nth i ≠ l ∧ c.pool.nth i ≠ r :=
    ⟨(h.used_ne (by simp) hi).symm, (h.used_ne (by simp) hi).symm⟩
  have hflag : c.pool.nth 1 ∉ [l, r] := by simp [hused]
  have hone : c.pool.nth 2 ∉ [l, r, c.pool.nth 0, c.pool.nth 1] := by simp [hused, h.nth_eq_nth]
  simp only [greaterEqual, bind_apply, emit_wrote, tempAvoiding_wrote _ _ _ _ hflag,
    tempAvoiding_wrote _ _ _ _ hone]
  rfl

theorem logicalOr_wrote :
    logicalOr (c.pool.nth 0) l r (c.wrote 1 0 []) =
      (.ok (), c.wrote 3 0 ((BinOp.logicalOr.code c.pool.nth l r).map .instr)) := by
  simp only [logicalOr, bind_apply, emit_wrote, temp_wrote]
  rfl

theorem logicalAnd_wrote (h : c.pool.Fresh 5 [l, r]) :
    logicalAnd (c.pool.nth 0) l r (c.wrote 1 0 []) =
      (.ok (), c.wrote 5 1 (BinOp.andCode c.pool.nth l r (.minted .andEnd c.labelCount))) := by
  have hused (i : Nat) (hi : i < 5) : c.pool.nth i ≠ l ∧ c.pool.nth i ≠ r :=
    ⟨(h.used_ne (by simp) hi).symm, (h.used_ne (by simp) hi).symm⟩
  have hz : c.pool.nth 1 ∉ [l, r, c.pool.nth 0] := by simp [hused, h.nth_eq_nth]
  have hflag : c.pool.nth 2 ∉ [l, r, c.pool.nth 0, c.pool.nth 1] := by simp [hused, h.nth_eq_nth]
  have hflag' : c.pool.nth 3 ∉ [l, r, c.pool.nth 0, c.pool.nth 1, c.pool.nth 2] := by
    simp [hused, h.nth_eq_nth]
  have hone : c.pool.nth 4 ∉ [l, r, c.pool.nth 0, c.pool.nth 1, c.pool.nth 2, c.pool.nth 3] := by
    simp [hused, h.nth_eq_nth]
  simp only [logicalAnd, bind_apply, emit_wrote, mint_wrote, place_wrote, jump, jumpIfNonzero,
    tempAvoiding_wrote _ _ _ _ hz, tempAvoiding_wrote _ _ _ _ hflag,
    tempAvoiding_wrote _ _ _ _ hflag', tempAvoiding_wrote _ _ _ _ hone]
  rfl

/-- The code of a test is the one in full. -/
theorem test_wrote {op : BinOp} (htest : op.isTest = true) (h : c.pool.Fresh op.draws [l, r]) :
    Compile.binary op (c.pool.nth 0) l r (c.wrote 1 0 []) =
      (.ok (), c.wrote op.draws op.labels (op.lines c.pool.nth l r c.labelCount)) := by
  cases op with
  | equal | notEqual | greater => exact flagTest_wrote _ _ h
  | less => exact less_wrote h
  | lessEqual => exact lessEqual_wrote
  | greaterEqual => exact greaterEqual_wrote h
  | logicalAnd => exact logicalAnd_wrote h
  | logicalOr => exact logicalOr_wrote
  | _ => cases htest

end Wrote

/-! ### Running the code -/

section Runs

open Cpu

variable {p : RegPool} {op : BinOp} {l r : Reg} {s : Cpu}

theorem code_straight (hp : p.nextTemp < 10) (op : BinOp) (l r : Reg) :
    (op.code p.nth l r).all Instr.straight = true := by
  have hip := p.nth_ne_ip hp
  cases op <;> simp [BinOp.code, BinOp.code.flagCode, Instr.straight, Operand.isAddress, hip]

theorem flagCode_leaves (op : CmpOp) (onZero : Bool) (h : p.Fresh 2 [l, r]) :
    ((BinOp.code.flagCode op onZero p.nth l r).foldl after s).regs (p.nth 0) =
      if onZero ∨ op.holds (s.regs l) (s.regs r) then 0 else -1 := by
  have hip := p.nth_ne_ip h.turning
  have h01 : p.nth 0 ≠ p.nth 1 := by simp [h.nth_eq_nth]
  cases onZero with
  | true =>
    by_cases hop : op.holds (s.regs l) (s.regs r) = true <;>
      simp [BinOp.code.flagCode, after_mov, after_alu, after_cmp, after_movZero, AluOp.eval,
        CmpOp.flag, hip, h01, h01.symm, hop]
  | false =>
    by_cases hop : op.holds (s.regs l) (s.regs r) = true <;>
      simp [BinOp.code.flagCode, after_mov, after_alu, after_cmp, after_movNonzero, AluOp.eval,
        CmpOp.flag, hip, h01, h01.symm, hop]

theorem less_leaves (h : p.Fresh 3 [l, r]) :
    ((BinOp.less.code p.nth l r).foldl after s).regs (p.nth 0) =
    truthWord (s.regs l < s.regs r) := by
  have hip := p.nth_ne_ip h.turning
  by_cases hop : s.regs l < s.regs r <;>
    simp [BinOp.code, after_mov, after_cmp, after_movNonzero, CmpOp.flag, CmpOp.holds, hip,
      h.nth_eq_nth, hop, truthWord]

theorem lessEqual_leaves (h : p.Fresh 4 [l, r]) :
    ((BinOp.lessEqual.code p.nth l r).foldl after s).regs (p.nth 0) =
    truthWord (s.regs l ≤ s.regs r) := by
  have hip := p.nth_ne_ip h.turning
  by_cases hop : s.regs r < s.regs l <;>
    simp [BinOp.code, after_mov, after_cmp, after_movNonzero, after_movZero, CmpOp.flag,
      CmpOp.holds, hip, h.nth_eq_nth, hop, truthWord]

theorem greaterEqual_leaves (h : p.Fresh 3 [l, r]) :
    ((BinOp.greaterEqual.code p.nth l r).foldl after s).regs (p.nth 0) =
    truthWord (s.regs l ≥ s.regs r) := by
  have hip := p.nth_ne_ip h.turning
  by_cases hop : s.regs l < s.regs r <;>
    simp [BinOp.code, after_mov, after_cmp, after_movZero, CmpOp.flag, CmpOp.holds, hip,
      h.nth_eq_nth, hop, truthWord]

theorem logicalOr_leaves (h : p.Fresh 3 [l, r]) :
    ((BinOp.logicalOr.code p.nth l r).foldl after s).regs (p.nth 0) = truthWord (s.regs l = 0) := by
  have hip := p.nth_ne_ip h.turning
  have hl (i : Nat) (hi : i < 3) : l ≠ p.nth i := h.used_ne (by simp) hi
  by_cases hop : s.regs l = 0#32 <;>
    simp [BinOp.code, after_mov, after_cmp, after_movNonzero, CmpOp.flag, CmpOp.holds, hip, hl,
      h.nth_eq_nth, hop, truthWord]

variable {code : List Line} {done : Label}

/-- A test without a label leaves its answer at its end. -/
theorem leads_code (htest : op.isTest = true) (hand : op ≠ .logicalAnd)
    (h : p.Fresh op.draws [l, r]) (hplaced : Placed code s.pc ((op.code p.nth l r).map .instr)) :
    ∃ t, Leads code s t ∧ t.pc = s.pc + (op.code p.nth l r).length ∧
      t.regs (p.nth 0) = op.leaves (s.regs l) (s.regs r) := by
  obtain ⟨hleads, hpc⟩ := leads_straight hplaced (code_straight h.turning op l r)
  refine ⟨_, hleads, hpc, ?_⟩
  cases op with
  | equal | greater => exact (flagCode_leaves _ true h).trans (if_pos (.inl rfl))
  | notEqual => exact (flagCode_leaves .equal false h).trans (by simp [BinOp.leaves, CmpOp.holds])
  | less => exact less_leaves h
  | lessEqual => exact lessEqual_leaves h
  | greaterEqual => exact greaterEqual_leaves h
  | logicalOr => exact logicalOr_leaves h
  | logicalAnd => exact absurd rfl hand
  | _ => cases htest

theorem leads_exitIfZero {flag a z : Reg} (hflag : flag ≠ ip) (hz : s.regs z = 0)
    (hplaced : Placed code s.pc (BinOp.exitIfZero flag a z done)) :
    ∃ t, Leads code s t ∧ (∀ q, q ≠ flag → t.regs q = s.regs q) ∧
      t.pc = if s.regs a = 0#32 then lineOf code done else s.pc + 2 := by
  have hcmp : Leads code s (s.after (.cmp .equal flag a z)) :=
    Leads.of_step fun input => by
      rw [step_instr hplaced.head, exec_straight (by simpa [Instr.straight] using hflag)]
  have hpc : (s.after (.cmp .equal flag a z)).pc = s.pc + 1 :=
    after_pc (by simpa [Instr.straight] using hflag)
  have hjump := leads_jumpIfNonzero (s := s.after (.cmp .equal flag a z)) (hpc ▸ hplaced.tail.head)
  refine ⟨_, hcmp.trans hjump, fun q hq => ?_, ?_⟩
  · split <;> simp [after_cmp hflag, hq]
  · by_cases ha : s.regs a = 0#32 <;> simp [after_cmp hflag, CmpOp.flag, CmpOp.holds, hz, ha, hpc]

theorem leads_andRight (h : p.Fresh 5 [l, r]) (hd : s.regs (p.nth 0) = 0)
    (hz : s.regs (p.nth 1) = 0) (hplaced : Placed code s.pc (BinOp.andRight p.nth r done))
    (hdone : lineOf code done = s.pc + 5) :
    ∃ t, Leads code s t ∧ t.pc = s.pc + 6 ∧ t.regs (p.nth 0) = truthWord (s.regs r ≠ 0) := by
  have hip := p.nth_ne_ip h.turning
  obtain ⟨hright, hrest⟩ := hplaced.append
  obtain ⟨hones, hrest⟩ := hrest.append
  -- Both ways to the end go over its label.
  have arrive (u : Cpu) (hu : u.pc = s.pc + 5) : Leads code u u.next :=
    leads_label (l := done) (by rw [hu]; exact hrest.tail.head)
  obtain ⟨s₁, hs₁, hregs₁, hpc₁⟩ := leads_exitIfZero (hip 3) hz hright
  by_cases hzero : s.regs r = 0#32
  · have hpc : s₁.pc = s.pc + 5 := by rw [hpc₁, if_pos hzero, hdone]
    refine ⟨s₁.next, hs₁.trans (arrive s₁ hpc), by rw [next_pc, hpc], ?_⟩
    rw [next_regs, hregs₁ _ (by simp [h.nth_eq_nth]), hd]
    simp [hzero, truthWord]
  · have hpc : s₁.pc = s.pc + 2 := by rw [hpc₁, if_neg hzero]
    obtain ⟨hs₂, hpc₂⟩ :=
      leads_straight (s := s₁) (hpc ▸ hones) (by simp [Instr.straight, Operand.isAddress, hip])
    have hs₃ := leads_jump (l := done) (by rw [hpc₂, hpc]; exact hrest.head)
    refine ⟨_, ((hs₁.trans hs₂).trans hs₃).trans
      (arrive _ hdone), by rw [next_pc, jump_pc, hdone], ?_⟩
    simp [after_mov, hip, hzero, truthWord]

theorem leads_andCode (h : p.Fresh 5 [l, r])
    (hplaced : Placed code s.pc (BinOp.andCode p.nth l r done))
    (hbefore : .label done ∉ code.take s.pc) :
    ∃ t, Leads code s t ∧ t.pc = s.pc + (BinOp.andCode p.nth l r done).length ∧
      t.regs (p.nth 0) = truthWord (s.regs l ≠ 0 ∧ s.regs r ≠ 0) := by
  have hip := p.nth_ne_ip h.turning
  have hl (i : Nat) (hi : i < 5) : l ≠ p.nth i := h.used_ne (by simp) hi
  have hr (i : Nat) (hi : i < 5) : r ≠ p.nth i := h.used_ne (by simp) hi
  have hdone : lineOf code done = s.pc + 9 := by
    rw [hplaced.lineOf_eq (by simp [BinOp.andCode, BinOp.andRight]) hbefore]
    simp [BinOp.andCode, BinOp.andRight, BinOp.exitIfZero]
  obtain ⟨hstart, hrest⟩ := hplaced.append
  obtain ⟨hleft, hright⟩ := hrest.append
  obtain ⟨s₁, hs₁, hpc₁, hd₁, hz₁, hl₁, hr₁⟩ : ∃ t, Leads code s t ∧ t.pc = s.pc + 2 ∧
    t.regs (p.nth 0) = 0 ∧
      t.regs (p.nth 1) = 0 ∧ t.regs l = s.regs l ∧ t.regs r = s.regs r := by
    obtain ⟨hleads, hpc⟩ := leads_straight hstart (by simp [Instr.straight, Operand.isAddress, hip])
    refine ⟨_, hleads, hpc, ?_⟩
    simp [after_mov, hip, hl, hr, h.nth_eq_nth]
  obtain ⟨s₂, hs₂, hregs₂, hpc₂⟩ := leads_exitIfZero (hip 2) hz₁ (hpc₁ ▸ hleft)
  have hd₂ : s₂.regs (p.nth 0) = 0 := by rw [hregs₂ _ (by simp [h.nth_eq_nth]), hd₁]
  by_cases hzero : s.regs l = 0#32
  · have hpc : s₂.pc = s.pc + 9 := by rw [hpc₂, hl₁, if_pos hzero, hdone]
    have hend : Leads code s₂ s₂.next := by
      refine leads_label (l := done) ?_
      rw [hpc]
      exact hright.tail.tail.tail.tail.tail.head
    refine ⟨s₂.next, (hs₁.trans hs₂).trans hend, ?_, by simp [hd₂, hzero, truthWord]⟩
    rw [next_pc, hpc]
    rfl
  · have hpc : s₂.pc = s.pc + 4 := by rw [hpc₂, hl₁, if_neg hzero, hpc₁]
    have hz₂ : s₂.regs (p.nth 1) = 0 := by rw [hregs₂ _ (by simp [h.nth_eq_nth]), hz₁]
    obtain ⟨t, ht, hpc', hd⟩ := leads_andRight h hd₂ hz₂ (hpc ▸ hright) (by rw [hdone, hpc])
    refine ⟨t, (hs₁.trans hs₂).trans ht, ?_, ?_⟩
    · rw [hpc', hpc]
      rfl
    · rw [hd, hregs₂ _ (hr 2 (by decide)), hr₁]
      simp [hzero]

end Runs

/-! ### Not -/

/-- The code of `!`. -/
def notCode (t : Nat → Reg) (a : Reg) : List Instr :=
  [.mov (t 1) (.imm 0), .cmp .equal (t 0) a (t 1), .mov (t 2) (.imm (-1)),
    .movZero (t 0) (t 0) (.reg (t 2)), .alu .bitXor (t 0) (t 0) (.reg (t 2))]

section Not

open Compiler Step Cpu

theorem not_wrote {c : Compiler} {a : Reg} :
    Compile.unary .logicalNot (c.pool.nth 0) a (c.wrote 1 0 []) =
      (.ok (), c.wrote 3 0 ((notCode c.pool.nth a).map .instr)) := by
  simp only [Compile.unary, bind_apply, emit_wrote, temp_wrote]
  rfl

theorem leads_notCode {p : RegPool} {a : Reg} {s : Cpu} {code : List Line} (h : p.Fresh 3 [a])
    (hplaced : Placed code s.pc ((notCode p.nth a).map .instr)) :
    ∃ t, Leads code s t ∧ t.pc = s.pc + (notCode p.nth a).length ∧ t.regs (p.nth 0) = 0 := by
  have hip := p.nth_ne_ip h.turning
  have ha (i : Nat) (hi : i < 3) : a ≠ p.nth i := h.used_ne (by simp) hi
  have hstraight : (notCode p.nth a).all Instr.straight = true := by
    simp [notCode, Instr.straight, Operand.isAddress, hip]
  obtain ⟨hleads, hpc⟩ := leads_straight hplaced hstraight
  refine ⟨_, hleads, hpc, ?_⟩
  by_cases hzero : s.regs a = 0#32 <;>
    simp [notCode, after_mov, after_alu, after_cmp, after_movZero, AluOp.eval, CmpOp.flag,
      CmpOp.holds, hip, ha, h.nth_eq_nth, hzero]

end Not

/-! ### Agreement with the evaluator -/

/-- The operands for which the code of a test answers as the evaluator does. -/
def BinOp.Agrees (op : BinOp) (a b : BitVec 32) : Prop :=
  match op with
  | equal => a ≠ b
  | notEqual => a = b
  | greater => a ≤ b
  | logicalOr => a = 0 ∧ b ≠ 0
  | _ => True

theorem leaves_eq_iff_agrees {op : BinOp} (htest : op.isTest = true) (a b : BitVec 32) :
    op.apply ⟨a.toNat, .uint32⟩ ⟨b.toNat, .uint32⟩ = .ok ⟨(op.leaves a b).toNat, .uint32⟩ ↔
    op.Agrees a b := by
  have hdiv : ¬(op.isDivision = true ∧ b = 0) := by
    cases op with
    | div | mod => cases htest
    | _ => exact fun h => nomatch h.1
  have hwords :
      op.apply ⟨a.toNat, .uint32⟩ ⟨b.toNat, .uint32⟩ = .ok ⟨(op.leaves a b).toNat, .uint32⟩ ↔
      op.onWords a b = op.leaves a b := by
    rw [BinOp.apply_unsigned, if_neg hdiv]
    simp only [Except.ok.injEq, Value.mk.injEq, and_true, Word.toNat_cast_inj]
  rw [hwords]
  cases op with
  | equal => simp [BinOp.onWords, BinOp.leaves, BinOp.Agrees, truthWord]
  | notEqual =>
    by_cases h : a = b <;> simp [BinOp.onWords, BinOp.leaves, BinOp.Agrees, truthWord, h]
  | greater => simp [BinOp.onWords, BinOp.leaves, BinOp.Agrees, truthWord]
  | logicalOr =>
    by_cases ha : a = 0#32 <;> by_cases hb : b = 0#32 <;>
      simp [BinOp.onWords, BinOp.leaves, BinOp.Agrees, truthWord, ha, hb]
  | less | lessEqual | greaterEqual | logicalAnd => exact iff_true_intro rfl
  | _ => cases htest

/-- Lines that leave a value in a register when they are run in a place where the labels from
`number` on are not placed before. -/
def LeavesIn (d : Reg) (number : Nat) (lines : List Line)
    (value : (Reg → BitVec 32) → BitVec 32) : Prop :=
  ∀ code (s : Cpu), Placed code s.pc lines →
    (∀ stem n, number ≤ n → .label (.minted stem n) ∉ code.take s.pc) →
    ∃ t, Cpu.Leads code s t ∧ t.pc = s.pc + lines.length ∧ t.regs d = value s.regs

theorem leavesIn_lines {p : RegPool} {op : BinOp} {l r : Reg} (htest : op.isTest = true)
    (h : p.Fresh op.draws [l, r]) (number : Nat) :
    LeavesIn (p.nth 0) number (op.lines p.nth l r number)
    fun regs => op.leaves (regs l) (regs r) := by
  intro code s hplaced hbefore
  by_cases hand : op = .logicalAnd
  · subst hand
    exact leads_andCode h hplaced (hbefore _ number (Nat.le_refl number))
  · have hlines : op.lines p.nth l r number = (op.code p.nth l r).map .instr := by
      cases op with
      | logicalAnd => exact absurd rfl hand
      | _ => rfl
    rw [hlines] at hplaced ⊢
    obtain ⟨t, hleads, hpc, hd⟩ := leads_code htest hand h hplaced
    exact ⟨t, hleads, by rw [hpc, List.length_map], hd⟩

theorem leavesIn_notCode {p : RegPool} {a : Reg} (h : p.Fresh 3 [a]) (number : Nat) :
    LeavesIn (p.nth 0) number ((notCode p.nth a).map .instr) fun _ => 0 := by
  intro code s hplaced _
  obtain ⟨t, hleads, hpc, hd⟩ := leads_notCode h hplaced
  exact ⟨t, hleads, by rw [hpc, List.length_map], hd⟩

/-- The code of a comparison or a logical operator, compiled behind its first or only operand `e`
and with fresh temporaries: what it leaves for all operands, and for which of them that is the
answer of the evaluator. -/
theorem test_code_answers (e : Expr) (c c₁ : Compiler) (l : Reg) (h : e.compile c = (.ok l, c₁)) :
    (∀ (op : BinOp) (e₂ : Expr) (c₂ : Compiler) (r : Reg), op.isTest = true →
      e₂.compile c₁ = (.ok r, c₂) →
      c₂.pool.Fresh op.draws [l, r] →
      ∃ lines, (Expr.binary op e e₂).compile c =
      (.ok (c₂.pool.nth 0), c₂.wrote op.draws op.labels lines) ∧
        LeavesIn (c₂.pool.nth 0) c₂.labelCount lines (fun regs => op.leaves (regs l) (regs r)) ∧
        ∀ a b : BitVec 32,
          op.apply ⟨a.toNat, .uint32⟩ ⟨b.toNat, .uint32⟩ = .ok ⟨(op.leaves a b).toNat, .uint32⟩ ↔
          op.Agrees a b) ∧
    (c₁.pool.Fresh 3 [l] →
      ∃ lines, (Expr.unary .logicalNot e).compile c = (.ok (c₁.pool.nth 0), c₁.wrote 3 0 lines) ∧
        LeavesIn (c₁.pool.nth 0) c₁.labelCount lines (fun _ => 0) ∧
        ∀ a : BitVec 32, UnaryOp.logicalNot.apply ⟨a.toNat, .uint32⟩ = ⟨0, .uint32⟩ ↔ a ≠ 0) := by
  constructor
  · intro op e₂ c₂ r htest h₂ hfresh
    refine ⟨_, ?_, leavesIn_lines htest hfresh c₂.labelCount, leaves_eq_iff_agrees htest⟩
    rw [Expr.compile, Step.bind_ok h, Step.bind_ok h₂, Step.bind_ok (Compiler.temp_eq c₂),
      Step.bind_ok (test_wrote htest hfresh), Step.pure_apply]
  · intro hfresh
    refine ⟨_, ?_, leavesIn_notCode hfresh c₁.labelCount, fun a => ?_⟩
    · rw [Expr.compile, Step.bind_ok h, Step.bind_ok (Compiler.temp_eq c₁), Step.bind_ok not_wrote,
        Step.pure_apply]
    · rw [UnaryOp.apply_unsigned (by decide)]
      by_cases ha : a = 0#32 <;> simp [UnaryOp.onWords, truthWord, ha]

/-- `3 && 5`, compiled first of all. -/
theorem and_code_answers : ∃ (c : Compiler) (lines : List Line), c.pool.Fresh 5 [1, 2] ∧
    (Expr.binary .logicalAnd (.literal 3) (.literal 5)).compile {} = (.ok 3, c.wrote 5 1 lines) ∧
    LeavesIn 3 0 lines (fun regs => truthWord (regs 1 ≠ 0 ∧ regs 2 ≠ 0)) := by
  have hliteral (n : Nat) (c : Compiler) :
      (Expr.literal n).compile c = (.ok (c.pool.nth 0), ((Expr.literal n).compile c).2) := rfl
  have hfresh : ((Expr.literal 5).compile ((Expr.literal 3).compile {}).2).2.pool.Fresh 5 [1, 2] :=
    ⟨by decide, by decide, by decide⟩
  obtain ⟨lines, hcode, hleaves, -⟩ :=
    (test_code_answers (.literal 3) {} _ _ (hliteral 3 _)).1 .logicalAnd (.literal 5) _ _ rfl
      (hliteral 5 _) hfresh
  exact ⟨_, lines, hfresh, hcode, hleaves⟩

/-- `1 == 1`, compiled first of all and run: the register of the result holds zero at the end. -/
theorem one_equals_one_leaves_zero :
    ∃ d code, ((Expr.binary .equal (.literal 1) (.literal 1)).compile {}).1 = .ok d ∧
    ((Expr.binary .equal (.literal 1) (.literal 1)).compile {}).2.code.toList = code ∧
    (∃ t, Cpu.Leads code ⟨fun _ => 0, fun _ => 0, 0⟩ t ∧ t.pc = code.length ∧ t.regs d = 0) ∧
    BinOp.equal.apply ⟨1, .uint32⟩ ⟨1, .uint32⟩ = .ok ⟨1, .uint32⟩ := by
  refine ⟨3, [.mov 1 (.imm 1), .mov 2 (.imm 1), .cmp .equal 3 1 2, .mov 4 (.imm (-1)),
    .movZero 3 3 (.reg 4), .alu .bitXor 3 3 (.reg 4)].map .instr, rfl, rfl, ?_, rfl⟩
  have hrun (is : List Instr) (h : is.all Instr.straight = true) :=
    Cpu.leads_straight (s := ⟨fun _ => 0, fun _ => 0, 0⟩) (List.prefix_refl (is.map Line.instr)) h
  exact ⟨_, (hrun _ (by decide)).1, (hrun _ (by decide)).2, by decide⟩

end WordC
