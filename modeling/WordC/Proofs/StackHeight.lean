import WordC.Proofs.Processor

/-!
# The height of the stack

Reading a listing from its start, each line moves the stack pointer by an amount that can be seen
from the line and the one before it; a call takes the word off again that was pushed for it, since
the called code does so. So every line has a height, which is how far the stack has grown there
since the function was entered. If the listing is `Disciplined`, the processor keeps to these
heights: in one activation of a function the stack pointer and the height of the line always add up
to the same word, also across calls, as long as each call returns to the line behind it.
-/

namespace WordC.Asm

/-! ### Lines that move the stack pointer -/

/-- The register that an instruction writes. -/
def Instr.target? : Instr → Option Reg
  | mov d _ | alu _ d _ _ | complement d _ | cmp _ d _ _ | movZero d _ _ | movNonzero d _ _
  | load d _ => some d
  | device op r => if op.delivers then some r else none
  | store _ _ | halt => none

def Line.target? : Line → Option Reg
  | .instr i => i.target?
  | _ => none

/-- Whether an instruction writes to the memory. -/
def Instr.isStore : Instr → Bool
  | store _ _ => true
  | _ => false

theorem Instr.isStore_of_target {i : Instr} {d : Reg} (h : i.target? = some d) :
    i.isStore = false := by
  cases i with
  | store a r => cases h
  | _ => rfl

/-- Labels that functions are entered by. -/
def Label.isEntry : Label → Bool
  | main | function _ => true
  | _ => false

/-- Labels of branches and loops of statements. -/
def Stem.isBranch : Stem → Bool
  | elseBranch | endIf | whileStart | whileEnd | doStart | doCondition | doEnd | forStart
  | forIncrement | forEnd => true
  | _ => false

def Label.isBranch : Label → Bool
  | minted stem _ => stem.isBranch
  | _ => false

abbrev pushLine : Line := .instr (.alu .sub sp sp (.imm 1))

abbrev popLine : Line := .instr (.alu .add sp sp (.imm 1))

abbrev constLine (n : Reg) (k : Int) : Line := .instr (.mov n (.imm k))

/-- Takes words off the stack, as many as a register says. -/
abbrev dropLine (n : Reg) : Line := .instr (.alu .add sp sp (.reg n))

abbrev callLine (f : Label) : Line := .instr (.mov ip (.addr f))

abbrev returnLine : Line := .instr (.mov ip (.reg link))

def Line.jumpsTo? : Line → Option Label
  | .instr (.mov d (.addr l)) | .instr (.movZero d _ (.addr l))
  | .instr (.movNonzero d _ (.addr l)) =>
    if d = ip then some l else none
  | _ => none

/-- Lines that always jump. -/
def Line.isJump : Line → Bool
  | .instr (.mov d (.addr _)) => d == ip
  | _ => false

theorem Line.jump_cases {l : Line} {a : Label} (h : l.jumpsTo? = some a) :
    l = .instr (.mov ip (.addr a)) ∨ ∃ c, l = .instr (.movZero ip c (.addr a)) ∨
    l = .instr (.movNonzero ip c (.addr a)) := by
  unfold Line.jumpsTo? at h
  split at h
  case h_4 => cases h
  all_goals
    split at h
    case isFalse => cases h
    rename_i hip
    cases hip
    cases h
  · exact .inl rfl
  · exact .inr ⟨_, .inl rfl⟩
  · exact .inr ⟨_, .inr rfl⟩

/-- How much the stack grows by a line. The line before a `dropLine` says how many words that takes
off. -/
def Line.shift (l before : Line) : Int :=
  match l with
  | .instr (.alu .sub d _ (.imm _)) => if d = sp then 1 else 0
  | .instr (.alu .add d _ (.imm _)) => if d = sp then -1 else 0
  | .instr (.alu .add d _ (.reg n)) =>
    if d = sp then
      match before with
      | .instr (.mov n' (.imm k)) => if n' = n then -k else 0
      | _ => 0
    else 0
  | .instr (.mov d (.addr f)) => if d = ip ∧ f.isEntry then -1 else 0
  -- Behind a return stands code that is run with the return address still on the stack.
  | .instr (.mov d (.reg _)) => if d = ip then 1 else 0
  | _ => 0

/-! ### Heights -/

def rise (before : Line) : List Line → Int
  | [] => 0
  | l :: ls => l.shift before + rise l ls

/-- The height that the stack has where a line comes next. -/
def height (code : List Line) (p : Nat) : Int := rise .blank (code.take p)

/-- The line before a line. -/
def lineBefore (code : List Line) (p : Nat) : Line := (code.take p).getLastD .blank

section Heights

variable {code : List Line} {p : Nat} {l : Line}

theorem rise_concat (before : Line) (ls : List Line) (l : Line) :
    rise before (ls ++ [l]) = rise before ls + l.shift (ls.getLastD before) := by
  induction ls generalizing before with
  | nil => simp [rise]
  | cons l' ls ih =>
    rw [List.cons_append, rise, rise, ih, Int.add_assoc, List.getLastD_cons]

theorem take_succ_of_get (h : code[p]? = some l) : code.take (p + 1) = code.take p ++ [l] := by
  rw [List.take_add_one, h]
  rfl

theorem height_succ (h : code[p]? = some l) :
    height code (p + 1) = height code p + l.shift (lineBefore code p) := by
  rw [height, take_succ_of_get h, rise_concat]
  rfl

theorem lineBefore_succ (h : code[p]? = some l) : lineBefore code (p + 1) = l := by
  rw [lineBefore, take_succ_of_get h]
  simp

theorem get_lineOf {label : Label} (h : lineOf code label < code.length) :
    code[lineOf code label]? = some (.label label) := by
  rw [List.getElem?_eq_getElem h]
  exact congrArg some (List.getElem_idxOf h)

end Heights

/-! ### Code that keeps to its heights -/

/-- An instruction that goes on with the next line and leaves the stack pointer alone. -/
def Instr.Plain (i : Instr) : Prop := ∀ r, i.target? = some r → r ≠ sp ∧ r ≠ ip

/-- What a line may do so that the heights are right. -/
inductive Kept (code : List Line) (p : Nat) : Line → Prop
  /-- Functions and the branches of statements start with nothing on the stack. -/
  | rest {line : Line} : (∀ i, line ≠ .instr i) →
      (∀ l, line = .label l → l.isEntry = true ∨ l.isBranch = true → height code p = 0) →
      Kept code p line
  | plain {i : Instr} : i.Plain → Kept code p (.instr i)
  | push : Kept code p pushLine
  | pop : Kept code p popLine
  | drop {n : Reg} {k : Int} : lineBefore code p = constLine n k → n ≠ ip → Kept code p (dropLine n)
  | jump {line : Line} {l : Label} : line.jumpsTo? = some l → l.isEntry = false →
      (l.isBranch = true ∧ height code p = 0) ∨ height code (lineOf code l) = height code p →
      Kept code p line
  | call {f : Label} : f.isEntry = true → Kept code p (callLine f)
  | back : height code p = -1 → Kept code p returnLine

structure Disciplined (code : List Line) : Prop where
  kept : ∀ p l, code[p]? = some l → Kept code p l
  /-- The listing ends with nothing on the stack. -/
  ends : height code code.length = 0

/-- A label that starts something, or the end of the listing if it is nowhere. -/
theorem Disciplined.height_lineOf {code : List Line} (h : Disciplined code) {l : Label}
    (hl : l.isEntry = true ∨ l.isBranch = true) : height code (lineOf code l) = 0 := by
  by_cases hlt : lineOf code l < code.length
  · cases h.kept _ _ (get_lineOf hlt) with
    | rest _ hlabel => exact hlabel l rfl hl
    | jump hjump => cases hjump
  · have heq : lineOf code l = code.length :=
      Nat.le_antisymm List.idxOf_le_length (Nat.le_of_not_lt hlt)
    rw [heq, h.ends]

/-- Where a function is left, its return address has been taken off the stack. -/
theorem Disciplined.height_return {code : List Line} {p : Nat} (h : Disciplined code)
    (hp : code[p]? = some returnLine) : height code p = -1 := by
  have hkept := h.kept _ _ hp
  generalize hline : returnLine = line at hkept
  cases hkept with
  | rest hrest => exact absurd hline.symm (hrest _)
  | plain hi =>
    cases hline
    exact absurd rfl (hi ip rfl).2
  | push | pop | drop | call => cases hline
  | jump hjump =>
    rw [← hline] at hjump
    cases hjump
  | back hback => exact hback

/-! ### One line -/

namespace Cpu

variable {code : List Line} {input : BitVec 32} {s t : Cpu} {i : Instr} {d r : Reg}

theorem put_regs (hr : r ≠ d) (v : BitVec 32) : (s.put d v).regs r = s.regs r := by
  unfold put
  split
  · rfl
  · simp [hr]

theorem move_regs (hr : r ≠ d) (o : Operand) : (s.move code d o).regs r = s.regs r := by
  unfold move
  split
  · split
    · rfl
    · exact put_regs hr _
  · exact put_regs hr _

theorem move_pc (hd : d ≠ ip) (o : Operand) : (s.move code d o).pc = s.pc + 1 := by
  cases o with
  | addr l => simp [move, hd, put_eq]
  | reg r | imm n => simp [move, hd, put_eq]

theorem exec_regs (h : s.exec code input i = some t) (hr : i.target? ≠ some r) :
    t.regs r = s.regs r := by
  have hne {d : Reg} (hd : some d ≠ some r) : r ≠ d := fun heq => hd (congrArg some heq.symm)
  cases i with
  | mov d o =>
    cases h
    exact move_regs (hne hr) o
  | alu op d a b | complement d a | cmp op d a b | load d a =>
    cases h
    exact put_regs (hne hr) _
  | movZero d c o =>
    cases h
    split
    · exact move_regs (hne hr) o
    · rfl
  | movNonzero d c o =>
    cases h
    split
    · rfl
    · exact move_regs (hne hr) o
  | store a b =>
    cases h
    rfl
  | device op d =>
    cases h
    split
    · next hop => exact put_regs (hne (by simpa [Instr.target?, hop] using hr)) _
    · rfl
  | halt => cases h

theorem exec_pc (h : s.exec code input i = some t) (hi : i.target? ≠ some ip) :
    t.pc = s.pc + 1 := by
  have hne {d : Reg} (hd : some d ≠ some ip) : d ≠ ip := fun heq => hd (congrArg some heq)
  cases i with
  | mov d o =>
    cases h
    exact move_pc (hne hi) o
  | alu op d a b | complement d a | cmp op d a b | load d a =>
    cases h
    rw [put_eq (hne hi)]
    rfl
  | movZero d c o =>
    cases h
    split
    · exact move_pc (hne hi) o
    · rfl
  | movNonzero d c o =>
    cases h
    split
    · rfl
    · exact move_pc (hne hi) o
  | store a b =>
    cases h
    rfl
  | device op d =>
    cases h
    split
    · next hop =>
      rw [put_eq (hne (by simpa [Instr.target?, hop] using hi))]
      rfl
    · rfl
  | halt => cases h

theorem step_regs {l : Line} (hl : code[s.pc]? = some l) (h : s.step code input = some t)
    (hr : l.target? ≠ some r) : t.regs r = s.regs r := by
  unfold step at h
  rw [hl] at h
  cases l with
  | instr i => exact exec_regs h hr
  | label | comment | blank =>
    cases h
    rfl
  | verbatim | word | directive => cases h

theorem put_memory (v : BitVec 32) : (s.put d v).memory = s.memory := by
  unfold put
  split <;> rfl

theorem move_memory (o : Operand) : (s.move code d o).memory = s.memory := by
  unfold move
  split
  · split
    · rfl
    · exact put_memory _
  · exact put_memory _

theorem exec_memory (h : s.exec code input i = some t) (hi : i.isStore = false) :
    t.memory = s.memory := by
  cases i with
  | mov d o =>
    cases h
    exact move_memory o
  | alu op d a b | complement d a | cmp op d a b | load d a =>
    cases h
    exact put_memory _
  | movZero d c o =>
    cases h
    split
    · exact move_memory o
    · rfl
  | movNonzero d c o =>
    cases h
    split
    · rfl
    · exact move_memory o
  | store a b => cases hi
  | device op d =>
    cases h
    split
    · exact put_memory _
    · rfl
  | halt => cases h

/-- Where the stack pointer was when the stack had no height. -/
def level (code : List Line) (s : Cpu) : BitVec 32 := s.regs sp + BitVec.ofInt 32 (height code s.pc)

/-- In front of a `dropLine`, its register holds what the line before says. -/
def Settled (code : List Line) (s : Cpu) : Prop :=
  ∀ n k, code[s.pc]? = some (dropLine n) → lineBefore code s.pc = constLine n k →
    s.regs n = BitVec.ofInt 32 k

theorem Settled.of_label {l : Label} (h : s.pc = lineOf code l) : s.Settled code := by
  intro n k hdrop
  have hlt : lineOf code l < code.length := h ▸ (List.getElem?_eq_some_iff.mp hdrop).1
  rw [h, get_lineOf hlt] at hdrop
  cases hdrop

/-- A line that loads no constant is in front of no `dropLine`. -/
theorem Settled.of_next {l : Line} (hl : code[s.pc]? = some l) (hconst : ∀ n k, l ≠ constLine n k)
    (ht : t.pc = s.pc + 1) : t.Settled code := by
  intro n k _ hbefore
  rw [ht, lineBefore_succ hl] at hbefore
  exact absurd hbefore (hconst n k)

theorem level_eq {v : Int} (hsp : t.regs sp + BitVec.ofInt 32 v = s.regs sp)
    (hheight : height code t.pc = height code s.pc + v) : t.level code = s.level code := by
  rw [level, level, hheight, BitVec.ofInt_add, ← hsp, BitVec.add_assoc,
    BitVec.add_comm (BitVec.ofInt 32 v)]

theorem shift_of_plain (hi : i.Plain) (before : Line) : (Line.instr i).shift before = 0 := by
  cases i with
  | mov d o =>
    obtain ⟨-, hip⟩ := hi d rfl
    cases o <;> simp [Line.shift, hip]
  | alu op d a o =>
    obtain ⟨hsp, -⟩ := hi d rfl
    cases op <;> cases o <;> simp [Line.shift, hsp]
  | _ => rfl

theorem shift_of_jump {l : Line} {a : Label} (hjump : l.jumpsTo? = some a)
    (hentry : a.isEntry = false) (before : Line) : l.shift before = 0 := by
  obtain rfl | ⟨c, rfl | rfl⟩ := l.jump_cases hjump
  · simp [Line.shift, hentry]
  · rfl
  · rfl

/-- A line that is no call and no return keeps the level. -/
theorem level_step {l : Line} (hcode : Disciplined code) (hl : code[s.pc]? = some l)
    (hcall : ∀ f, f.isEntry = true → l ≠ callLine f) (hback : l ≠ returnLine) (hs : s.Settled code)
    (h : s.step code input = some t) :
    t.level code = s.level code ∧ t.Settled code := by
  have hheight := height_succ hl
  unfold step at h
  rw [hl] at h
  cases hcode.kept _ _ hl with
  | rest hrest =>
    have hnext : t = s.next ∧ l.shift (lineBefore code s.pc) = 0 := by
      cases l with
      | instr i => exact absurd rfl (hrest i)
      | label | comment | blank => exact ⟨(Option.some.inj h).symm, rfl⟩
      | verbatim | word | directive => cases h
    obtain ⟨rfl, hshift⟩ := hnext
    refine ⟨level_eq (v := 0) (by simp) (by rw [next_pc, hheight, hshift]),
      .of_next hl (fun n k heq => hrest _ heq) rfl⟩
  | @plain i hi =>
    have hpc : t.pc = s.pc + 1 := exec_pc h fun heq => (hi ip heq).2 rfl
    have hsp : t.regs sp = s.regs sp := exec_regs h fun heq => (hi sp heq).1 rfl
    refine ⟨level_eq (v := 0) (by simp [hsp]) (by rw [hpc, hheight, shift_of_plain hi]), ?_⟩
    intro n k _ hbefore
    rw [hpc, lineBefore_succ hl] at hbefore
    cases hbefore
    have hn : n ≠ ip := (hi n rfl).2
    cases h
    simp [move_eq hn (o := .imm k) rfl]
  | push =>
    cases h
    rw [put_eq (by decide)]
    refine ⟨level_eq (v := 1) ?_ hheight, .of_next hl nofun rfl⟩
    exact BitVec.sub_add_cancel _ _
  | pop =>
    cases h
    rw [put_eq (by decide)]
    refine ⟨level_eq (v := -1) ?_ hheight, .of_next hl nofun rfl⟩
    simp [AluOp.eval, BitVec.add_assoc]
  | @drop n k hbefore hn =>
    have hk : s.regs n = BitVec.ofInt 32 k := hs n k hl hbefore
    cases h
    rw [put_eq (by decide)]
    refine ⟨level_eq (v := -k) ?_ ?_, .of_next hl nofun rfl⟩
    · show s.regs sp + s.regs n + BitVec.ofInt 32 (-k) = s.regs sp
      rw [hk, BitVec.add_assoc, ← BitVec.ofInt_add, Int.add_right_neg]
      exact BitVec.add_zero _
    · rw [hbefore] at hheight
      simpa [dropLine, constLine, Line.shift] using hheight
  | @jump _ a hjump hentry hlevel =>
    have hshift := shift_of_jump hjump hentry (lineBefore code s.pc)
    have hcases : t = s.next ∨ t = s.jump (lineOf code a) := by
      obtain rfl | ⟨c, rfl | rfl⟩ := l.jump_cases hjump
      · exact .inr (Option.some.inj h).symm
      · cases h
        split
        · exact .inr rfl
        · exact .inl rfl
      · cases h
        split
        · exact .inl rfl
        · exact .inr rfl
    rcases hcases with rfl | rfl
    · refine ⟨level_eq (v := 0) (by simp) (by rw [next_pc, hheight, hshift]),
        .of_next hl (fun n k heq => ?_) rfl⟩
      rw [heq] at hjump
      cases hjump
    · have heq : height code (lineOf code a) = height code s.pc := by
        rcases hlevel with ⟨hbranch, hzero⟩ | heq
        · rw [hzero, hcode.height_lineOf (.inr hbranch)]
        · exact heq
      exact ⟨level_eq (v := 0) (by simp) (by rw [jump_pc, heq, Int.add_zero]), .of_label rfl⟩
  | call hf => exact absurd rfl (hcall _ hf)
  | back => exact absurd rfl hback

/-! ### Runs in which calls return -/

/-- The processor runs lines of `inner` and makes calls. Each call has come back to the line behind
it, and what is called runs lines of `outer` and makes calls in the same way. -/
inductive Runs (code : List Line) (outer : Nat → Prop) : (inner : Nat → Prop) → Cpu → Cpu → Prop
  | refl {inner : Nat → Prop} {s : Cpu} : Runs code outer inner s s
  | step {inner : Nat → Prop} {s t u : Cpu} {l : Line} {input : BitVec 32} :
      inner s.pc → code[s.pc]? = some l →
      (∀ f, f.isEntry = true → l ≠ callLine f) → l ≠ returnLine → s.step code input = some t →
      Runs code outer inner t u → Runs code outer inner s u
  | call {inner : Nat → Prop} {s s' t t' u : Cpu} {f : Label}
      {input input' : BitVec 32} : inner s.pc →
      code[s.pc]? = some (callLine f) → f.isEntry = true → s.step code input = some s' →
      Runs code outer outer s' t → outer t.pc → code[t.pc]? = some returnLine → t.step code input' =
      some t' → t'.pc = s.pc + 1 → Runs code outer inner t' u → Runs code outer inner s u

namespace Runs

variable {outer inner : Nat → Prop}

/-- The stack pointer keeps its level, also where calls were made. -/
theorem level (hcode : Disciplined code) (h : Runs code outer inner s t) (hs : s.Settled code) :
    t.level code = s.level code ∧ t.Settled code := by
  induction h with
  | refl => exact ⟨rfl, hs⟩
  | step _ hl hcall hback hstep _ ih =>
    obtain ⟨hlevel, hsettled⟩ := level_step hcode hl hcall hback hs hstep
    obtain ⟨hrest, hend⟩ := ih hsettled
    exact ⟨hrest.trans hlevel, hend⟩
  | @call _ s s' t t' u f _ _ _ hl hf hstep _ _ hreturn hstep' hpc _ ihbody ih =>
    have hentry : s'.pc = lineOf code f := by
      rw [step_instr hl] at hstep
      cases hstep
      rfl
    have hpushed : s'.regs sp = s.regs sp := step_regs hl hstep (show some ip ≠ some sp by decide)
    have hpopped : t'.regs sp = t.regs sp := step_regs hreturn hstep' (by decide)
    obtain ⟨hbody, -⟩ := ihbody (.of_label hentry)
    -- The called code starts at height zero and ends with its return address taken off.
    have hsp : t.regs sp + BitVec.ofInt 32 (-1) = s.regs sp := by
      rw [Cpu.level, Cpu.level, hcode.height_return hreturn, hentry, hcode.height_lineOf (.inl hf),
        hpushed] at hbody
      simpa using hbody
    have hlevel : t'.level code = s.level code := by
      refine level_eq (v := -1) (by rw [hpopped, hsp]) ?_
      rw [hpc, height_succ hl]
      simp [Line.shift, hf]
    obtain ⟨hrest, hend⟩ := ih (.of_next hl nofun hpc)
    exact ⟨hrest.trans hlevel, hend⟩

/-- A register that no line writes keeps its value. -/
theorem regs {r : Reg} (h : Runs code outer inner s t)
    (houter : ∀ p l, outer p → code[p]? = some l → l.target? ≠ some r)
    (hinner : ∀ p l, inner p → code[p]? = some l → l.target? ≠ some r) : t.regs r = s.regs r := by
  induction h with
  | refl => rfl
  | step hp hl _ _ hstep _ ih => exact (ih hinner).trans (step_regs hl hstep (hinner _ _ hp hl))
  | call hp hl _ hstep _ hq hreturn hstep' _ _ ihbody ih =>
    calc _ = _ := ih hinner
      _ = _ := step_regs hreturn hstep' (houter _ _ hq hreturn)
      _ = _ := ihbody houter
      _ = _ := step_regs hl hstep (hinner _ _ hp hl)

end Runs

end Cpu

end WordC.Asm
