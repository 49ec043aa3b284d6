import Mathlib.Data.List.Chain
import WordC.Proofs.LoopControl
import WordC.Proofs.Lowering

/-!
# Code goes the way of the flow

The processor is followed through the pieces of a statement's code. The lines of an action or a
condition are passed as a whole: they may leave anything in the registers, except that the register
of a condition is zero exactly where the condition does not hold. All other lines are run. If no
line between a condition and its jump clears the condition's register, the processor performs the
actions and conditions of the flow in the order of the flow, for all answers of the conditions, and
ends as the flow does.
-/

namespace WordC

open Asm

/-! ### Going over pieces -/

/-- A line that stands for a piece. -/
def CodePiece.mark : CodePiece → Line
  | act _ _ | test _ _ _ => .blank
  | line l => l

/-- What is not known of the lines of actions and conditions: the answers of conditions, and what is
in the registers behind the lines, of which only the tested one is sure. -/
structure Unknowns where
  answers : Nat → Bool
  afterAct : List Event → Reg → BitVec 32
  afterTest : List Event → (tested : Reg) → Reg → BitVec 32
  tested_eq_zero : ∀ seen c holds r, afterTest (seen ++ [.test c holds]) r r = 0#32 ↔ holds = false

/-- Where the processor is in the pieces, and what it has performed. -/
structure Track where
  cpu : Cpu
  seen : List Event
  returned : Bool

namespace Track

/-- One piece. Nothing comes behind a return or the last piece. -/
def step (w : Unknowns) (all : List CodePiece) (s : Track) : Option Track :=
  if s.returned then none
  else
    match all[s.cpu.pc]? with
    | none => none
    | some (.act st _) =>
      let seen := s.seen ++ [.act st]
      some ⟨{ s.cpu.next with regs := w.afterAct seen }, seen, st.isReturn⟩
    | some (.test c r _) =>
      let seen := s.seen ++ [.test c (nextAnswer w.answers s.seen)]
      some ⟨{ s.cpu.next with regs := w.afterTest seen r }, seen, false⟩
    | some (.line _) => (s.cpu.step (all.map CodePiece.mark) 0).map fun cpu => { s with cpu }

/-- The track after a number of pieces. -/
def run (w : Unknowns) (all : List CodePiece) (s : Track) : Nat → Option Track
  | 0 => some s
  | n + 1 => (run w all s n).bind (step w all)

theorem run_add (w : Unknowns) (all : List CodePiece) (s : Track) (m n : Nat) :
    run w all s (m + n) = (run w all s m).bind fun t => run w all t n := by
  induction n with
  | zero => simp [run]
  | succ n ih =>
    rw [← Nat.add_assoc, run, ih, Option.bind_assoc]
    rfl

/-- A track stands at a piece and goes on. -/
structure At (pos : Nat) (seen : List Event) (s : Track) : Prop where
  pc : s.cpu.pc = pos
  seen : s.seen = seen
  goes : s.returned = false

end Track

open Track

variable {w : Unknowns} {all : List CodePiece}

/-- From a piece on, a track with what has been seen so far gets to where `Q` holds, over at least
`m` pieces. -/
def Reaches (w : Unknowns) (all : List CodePiece) (m pos : Nat) (seen : List Event)
    (Q : Track → Prop) : Prop :=
  ∀ s, s.At pos seen → ∃ n t, m ≤ n ∧ run w all s n = some t ∧ Q t

namespace Reaches

variable {m m' pos pos' : Nat} {seen seen' : List Event} {Q : Track → Prop}

theorem refl (pos : Nat) (seen : List Event) : Reaches w all 0 pos seen (At pos seen) :=
  fun s hs => ⟨0, s, Nat.le_refl 0, rfl, hs⟩

theorem trans (h : Reaches w all m pos seen (At pos' seen')) (h' : Reaches w all m' pos' seen' Q) :
    Reaches w all (m + m') pos seen Q := by
  intro s hs
  obtain ⟨n, t, hn, ht, hat⟩ := h s hs
  obtain ⟨n', t', hn', ht', hQ⟩ := h' t hat
  refine ⟨n + n', t', Nat.add_le_add hn hn', ?_, hQ⟩
  rw [run_add, ht]
  exact ht'

theorem least (h : Reaches w all m pos seen Q) (hm : m' ≤ m) : Reaches w all m' pos seen Q := by
  intro s hs
  obtain ⟨n, t, hn, ht, hQ⟩ := h s hs
  exact ⟨n, t, Nat.le_trans hm hn, ht, hQ⟩

theorem onward (h : Reaches w all m pos seen (At pos' seen')) (h' : Reaches w all m' pos' seen' Q) :
    Reaches w all m pos seen Q := (h.trans h').least (Nat.le_add_right m m')

theorem of_step (h : ∀ s : Track, s.At pos seen → ∃ t, step w all s = some t ∧ Q t) :
    Reaches w all 1 pos seen Q := by
  intro s hs
  obtain ⟨t, ht, hQ⟩ := h s hs
  exact ⟨1, t, Nat.le_refl 1, ht, hQ⟩

end Reaches

/-! ### The pieces one by one -/

/-- The piece that places a label. -/
def placeOf (all : List CodePiece) (l : Label) : Nat := lineOf (all.map CodePiece.mark) l

section Pieces

variable {pos : Nat} {seen : List Event} {rest : List CodePiece}

variable {ls : List Line} {r : Reg} {c : Expr} {t : Track} {l : Label}

theorem reaches_act {s : Stmt} (h : Placed all pos (.act s ls :: rest)) : Reaches w all 1 pos seen
    fun t => t.cpu.pc = pos + 1 ∧ t.seen = seen ++ [.act s] ∧ t.returned = s.isReturn := by
  refine .of_step fun t ⟨hpc, hseen, hgoes⟩ => ?_
  refine ⟨_, by simp only [step, hgoes, hpc, h.head]; rfl, ?_⟩
  simp [hpc, hseen]

theorem reaches_test (h : Placed all pos (.test c r ls :: rest)) : Reaches w all 1 pos seen
    fun t => t.At (pos + 1) (seen ++ [.test c (nextAnswer w.answers seen)]) ∧
      (t.cpu.regs r = 0#32 ↔ nextAnswer w.answers seen = false) := by
  refine .of_step fun t ⟨hpc, hseen, hgoes⟩ => ?_
  refine ⟨_, by simp only [step, hgoes, hpc, h.head]; rfl, ⟨?_, ?_, rfl⟩, ?_⟩
  · simp [hpc]
  · simp [hseen]
  · simpa [hseen] using w.tested_eq_zero seen c (nextAnswer w.answers seen) r

/-- A line is run by the processor. -/
theorem step_line {l : Line} (cpu : Cpu) (h : Placed all pos (.line l :: rest)) (ht : t.At pos seen)
    (hcpu : ∀ {code : List Line}, code[t.cpu.pc]? = some l → code = all.map CodePiece.mark →
      t.cpu.step code 0 = some cpu) : step w all t = some { t with cpu } := by
  have hline : (all.map CodePiece.mark)[t.cpu.pc]? = some l := by
    rw [List.getElem?_map, ht.pc, h.head]
    rfl
  simp only [step, ht.goes, ht.pc, h.head, hcpu hline rfl]
  rfl

theorem reaches_label (h : Placed all pos (.line (.label l) :: rest)) :
    Reaches w all 1 pos seen (At (pos + 1) seen) := by
  refine .of_step fun t ht => ⟨_, step_line t.cpu.next h ht fun hline _ => ?_, ?_⟩
  · simp only [Cpu.step, hline]
  · exact ⟨by simp [ht.pc], ht.seen, ht.goes⟩

theorem reaches_jump (h : Placed all pos (.line (jumpLine l) :: rest)) :
    Reaches w all 1 pos seen (At (placeOf all l) seen) := by
  refine .of_step fun t ht =>
    ⟨_, step_line (t.cpu.jump (placeOf all l)) h ht fun hline hcode => ?_, ?_⟩
  · rw [Cpu.step_instr hline, hcode]
    rfl
  · exact ⟨rfl, ht.seen, ht.goes⟩

theorem step_exit (h : Placed all pos (.line (exitLine r l) :: rest)) (ht : t.At pos seen) :
    ∃ t', step w all t = some t' ∧
    t'.At (if t.cpu.regs r = 0#32 then placeOf all l else pos + 1) seen := by
  refine ⟨_, step_line (if t.cpu.regs r = 0#32 then t.cpu.jump (placeOf all l) else t.cpu.next) h ht
    fun hline hcode => ?_, ?_⟩
  · rw [Cpu.step_instr hline, hcode]
    rfl
  · split
    · exact ⟨rfl, ht.seen, ht.goes⟩
    · exact ⟨by simp [ht.pc], ht.seen, ht.goes⟩

theorem step_clear {z : Reg} (h : Placed all pos (.line (clearLine z) :: rest)) (hz : z ≠ ip)
    (ht : t.At pos seen) :
    ∃ t', step w all t = some t' ∧ t'.At (pos + 1) seen ∧
      ∀ q, t'.cpu.regs q = if q = z then 0#32 else t.cpu.regs q := by
  refine ⟨_, step_line (t.cpu.setReg z 0).next h ht fun hline hcode => ?_, ?_, ?_⟩
  · rw [Cpu.step_instr hline, Cpu.exec, Cpu.move_eq hz (o := .imm 0) rfl]
    rfl
  · exact ⟨by simp [ht.pc], ht.seen, ht.goes⟩
  · intro q
    by_cases hq : q = z <;> simp [hq]

/-- A condition goes on or to where its jump leads. -/
theorem reaches_test_exit
    (h : Placed all pos (.test c r ls :: .line (exitLine r l) :: rest)) :
    Reaches w all 1 pos seen
      (At (if nextAnswer w.answers seen then pos + 2 else placeOf all l)
        (seen ++ [.test c (nextAnswer w.answers seen)])) := by
  intro s hs
  obtain ⟨n, t, hn, ht, hat, hzero⟩ := reaches_test h s hs
  obtain ⟨t', ht', hat'⟩ := step_exit (w := w) h.tail hat
  refine ⟨n + 1, t', Nat.le_succ_of_le hn, by rw [run, ht]; exact ht', ?_⟩
  cases hanswer : nextAnswer w.answers seen <;> simpa [hzero, hanswer] using hat'

/-- The same with a line between that clears a register. If that is the register of the condition,
the jump is taken whatever the answer was. -/
theorem reaches_test_clear_exit {z : Reg}
    (h : Placed all pos (.test c r ls :: .line (clearLine z) :: .line (exitLine r l) :: rest))
    (hip : z ≠ ip) : Reaches w all 1 pos seen
      (At (if nextAnswer w.answers seen = true ∧ z ≠ r then pos + 3 else placeOf all l)
        (seen ++ [.test c (nextAnswer w.answers seen)])) := by
  intro s hs
  obtain ⟨n, t, hn, ht, hat, hzero⟩ := reaches_test h s hs
  obtain ⟨t₁, ht₁, hat₁, hregs⟩ := step_clear (w := w) h.tail hip hat
  obtain ⟨t₂, ht₂, hat₂⟩ := step_exit (w := w) h.tail.tail hat₁
  refine ⟨n + 2, t₂, by omega, ?_, ?_⟩
  · rw [run, run, ht]
    exact (congrArg (Option.bind · (step w all)) ht₁).trans ht₂
  · by_cases hz : z = r
    · simpa [hregs r, hz] using hat₂
    · cases hanswer : nextAnswer w.answers seen <;>
        simpa [hregs r, hz, Ne.symm hz, hzero, hanswer] using hat₂

end Pieces

/-! ### Where a flow lands -/

/-- The processor gets to where a flow ends. A value `a` ends at the piece `stop a`, loop control at
the labels of the innermost loop, and a flow that is given up is followed over at least `bound`
pieces. -/
def Lands {α : Type} (w : Unknowns) (all : List CodePiece) (loops : List LoopLabels)
    (stop : α → Nat) (bound pos : Nat) (seen : List Event) : Except Signal α × List Event → Prop
  | (.ok a, seen') => Reaches w all 0 pos seen (At (stop a) seen')
  | (.error .breakLoop, seen') =>
    ∃ labels, loops.head? = some labels ∧
      Reaches w all 0 pos seen (At (placeOf all labels.exit) seen')
  | (.error .continueLoop, seen') =>
    ∃ labels, loops.head? = some labels ∧
      Reaches w all 0 pos seen (At (placeOf all labels.next) seen')
  | (.error (.returned _), seen') =>
    Reaches w all 0 pos seen fun t => t.returned = true ∧ t.seen = seen'
  | (.error .outOfFuel, seen') => Reaches w all bound pos seen fun t => t.seen = seen'
  | (.error (.failure _), _) => False

namespace Lands

variable {α β : Type} {loops : List LoopLabels} {stop : α → Nat} {bound pos : Nat}
  {seen : List Event}

variable {result : Except Signal α × List Event}

/-- Pieces that are passed before count. -/
theorem passing {m pos' : Nat} {seen' : List Event} (h : Reaches w all m pos seen (At pos' seen'))
    (h' : Lands w all loops stop bound pos' seen' result) :
    Lands w all loops stop (m + bound) pos seen result := by
  have h₀ := h.least (Nat.zero_le m)
  rcases result with ⟨signal | a, seen''⟩
  · cases signal with
    | failure e => exact h'
    | breakLoop | continueLoop =>
      obtain ⟨labels, hlabels, hreach⟩ := h'
      exact ⟨labels, hlabels, h₀.onward hreach⟩
    | returned v => exact h₀.onward h'
    | outOfFuel => exact h.trans h'
  · exact h₀.onward h'

theorem least {bound' : Nat} (h : Lands w all loops stop bound pos seen result)
    (hbound : bound' ≤ bound) : Lands w all loops stop bound' pos seen result := by
  rcases result with ⟨signal | a, seen'⟩
  · cases signal with
    | outOfFuel => exact Reaches.least h hbound
    | _ => exact h
  · exact h

theorem after {m pos' : Nat} {seen' : List Event} (h : Reaches w all m pos seen (At pos' seen'))
    (h' : Lands w all loops stop bound pos' seen' result) :
    Lands w all loops stop bound pos seen result := (passing h h').least (Nat.le_add_left bound m)

/-- What is done behind a value does not change how else a flow ends. -/
theorem bind {x : Control (List Event) α} {f : α → Control (List Event) β} {stop' : β → Nat}
    (h : Lands w all loops stop bound pos seen (x seen))
    (h' : ∀ a seen', Lands w all loops stop' bound (stop a) seen' (f a seen')) :
    Lands w all loops stop' bound pos seen ((x >>= f) seen) := by
  rw [Step.bind_apply]
  rcases hx : x seen with ⟨signal | a, seen'⟩
  · rw [hx] at h
    cases signal <;> exact h
  · rw [hx] at h
    exact after h (h' a seen')

/-- The way from where a value ends to another piece. -/
theorem onward {stop' : α → Nat} (h : Lands w all loops stop bound pos seen result)
    (h' : ∀ a seen', Reaches w all 0 (stop a) seen' (At (stop' a) seen')) :
    Lands w all loops stop' bound pos seen result := by
  rcases result with ⟨signal | a, seen'⟩
  · cases signal <;> exact h
  · exact Reaches.onward h (h' a seen')

/-- The body of a loop: a `continue` goes on like the end of the body, and a `break` leaves. -/
theorem attempt {body : Control (List Event) Unit} {labels : LoopLabels} {stop go leave : Nat}
    (h : Lands w all (labels :: loops) (fun _ => stop) bound pos seen (body seen))
    (hgo : ∀ seen', Reaches w all 0 stop seen' (At go seen'))
    (hnext : ∀ seen', Reaches w all 0 (placeOf all labels.next) seen' (At go seen'))
    (hexit : ∀ seen', Reaches w all 0 (placeOf all labels.exit) seen' (At leave seen')) :
    Lands w all loops (fun b => if b then go else leave) bound pos seen
    (Control.attempt body seen) := by
  unfold Control.attempt
  rcases hbody : body seen with ⟨signal | _, seen'⟩
  · rw [hbody] at h
    cases signal with
    | breakLoop =>
      obtain ⟨labels', hlabels, hreach⟩ := h
      cases hlabels
      exact hreach.onward (hexit seen')
    | continueLoop =>
      obtain ⟨labels', hlabels, hreach⟩ := h
      cases hlabels
      exact hreach.onward (hnext seen')
    | _ => exact h
  · rw [hbody] at h
    exact Reaches.onward h (hgo seen')

/-- A loop whose rounds start behind a label. Each round passes the label, so that a loop is
followed at least as far as it has rounds. -/
theorem iterate {round : Control (List Event) Bool} {start leave fuel : Nat}
    (hlabel : ∀ seen, Reaches w all 1 start seen (At (start + 1) seen)) (hround : ∀ seen,
      Lands w all loops (fun b => if b then start else leave) fuel (start + 1) seen (round seen))
    {n : Nat} (hn : n ≤ fuel) (seen : List Event) :
    Lands w all loops (fun _ => leave) n start seen (Control.iterate round n seen) := by
  induction n generalizing seen with
  | zero => exact fun s hs => ⟨0, s, Nat.le_refl 0, rfl, hs.seen⟩
  | succ n ih =>
    have h := after (hlabel seen) (hround seen)
    rw [Control.iterate, Step.bind_apply]
    rcases hr : round seen with ⟨signal | b, seen'⟩
    · rw [hr] at h
      cases signal with
      | outOfFuel => exact Reaches.least h hn
      | _ => exact h
    · have hreach := hround seen
      rw [hr] at hreach
      cases b with
      | true =>
        have hagain := passing ((hlabel seen).onward hreach) (ih (Nat.le_of_succ_le hn) seen')
        rwa [Nat.add_comm] at hagain
      | false => exact ((hlabel seen).onward hreach).least (Nat.zero_le 1)

end Lands

/-! ### Where labels are placed -/

/-- No label with a number from `n` on is placed before a piece. -/
def Unplaced (all : List CodePiece) (pos n : Nat) : Prop :=
  ∀ stem i, n ≤ i → .line (.label (.minted stem i)) ∉ all.take pos

section Places

variable {pos n : Nat} {ps rest : List CodePiece} {l : Label}

theorem take_placed (h : Placed all pos ps) : all.take (pos + ps.length) = all.take pos ++ ps := by
  rw [List.take_add, ← List.prefix_iff_eq_take.mp h]

theorem placeOf_eq (h : Placed all pos (ps ++ .line (.label l) :: rest))
    (hbefore : .line (.label l) ∉ all.take pos) (hps : .line (.label l) ∉ ps) :
    placeOf all l = pos + ps.length := by
  obtain ⟨hfront, hback⟩ := h.append
  have hmark :
      Placed (all.map CodePiece.mark) (pos + ps.length) (.label l :: rest.map CodePiece.mark) := by
    have hmap := List.IsPrefix.map CodePiece.mark hback
    rwa [List.map_drop] at hmap
  have hnone : Line.label l ∉ (all.map CodePiece.mark).take (pos + ps.length) := by
    rw [← List.map_take, take_placed hfront]
    intro hmem
    obtain ⟨p, hp, hmark⟩ := List.mem_map.mp hmem
    cases p with
    | act s ls | test c r ls => cases hmark
    | line l' =>
      cases hmark
      exact (List.mem_append.mp hp).elim hbefore hps
  have hplace := hmark.lineOf_eq (List.mem_cons_self ..) hnone
  rwa [List.idxOf_cons_self] at hplace

theorem Unplaced.after {m : Nat} {k k' : Compiler} (h : Unplaced all pos n)
    (hplaced : Placed all pos ps) (hps : Segment m k ps k') (hn : n ≤ k'.labelCount) :
    Unplaced all (pos + ps.length) k'.labelCount := by
  intro stem i hi
  rw [take_placed hplaced]
  intro hmem
  rcases List.mem_append.mp hmem with hmem | hmem
  · exact h stem i (Nat.le_trans hn hi) hmem
  · obtain ⟨stem', j, heq, -, hlt⟩ := hps.placed _ hmem
    cases heq
    omega

/-- The place of a label of the compiler, which numbers labels as they come. -/
theorem Unplaced.placeOf_eq {stem : Stem} {i p : Nat} (h : Unplaced all pos n)
    (hl : l = .minted stem i) (hi : n ≤ i)
    (hplaced : Placed all pos (ps ++ .line (.label l) :: rest)) (hps : .line (.label l) ∉ ps)
    (hp : p = pos + ps.length) : placeOf all l = p := by
  rw [hp]
  refine WordC.placeOf_eq hplaced ?_ hps
  rw [hl]
  exact h stem i hi

theorem Segment.not_placed {m i : Nat} {stem : Stem} {k k' : Compiler} (h : Segment m k ps k')
    (hl : l = .minted stem i) (hi : i < m) : .line (.label l) ∉ ps := by
  intro hmem
  obtain ⟨stem', j, heq, hle, -⟩ := h.placed _ hmem
  cases hl.symm.trans heq
  omega

end Places

/-! ### Statements -/

/-- A piece leaves the register of a condition before it as it is. -/
def CodePiece.Keeps : CodePiece → CodePiece → Prop
  | test _ r _, line l => l ≠ clearLine r
  | _, _ => True

/-- No condition is followed by a line that clears its own register. -/
def KeepsTests (all : List CodePiece) : Prop := all.IsChain CodePiece.Keeps

theorem KeepsTests.ne {pos : Nat} {c : Expr} {r z : Reg} {ls : List Line}
    {rest : List CodePiece} (h : KeepsTests all)
    (hplaced : Placed all pos (.test c r ls :: .line (clearLine z) :: rest)) : z ≠ r := by
  obtain ⟨_, hrest⟩ := hplaced
  have hchain := h.drop pos
  rw [← hrest] at hchain
  have hkept := (List.isChain_cons_cons.mp hchain.left_of_append).1
  exact fun heq => hkept (by rw [heq])

section Statements

variable {loops : List LoopLabels} {bound pos : Nat} {seen : List Event} {rest : List CodePiece}

theorem lands_act {s : Stmt} {ls : List Line} (h : Placed all pos (.act s ls :: rest)) :
    Lands w all loops (fun _ => pos + 1) bound pos seen ((tracing w.answers).act s seen) := by
  have hact : Reaches w all 0 pos seen _ := (reaches_act h).least (Nat.zero_le 1)
  cases hreturn : s.isReturn with
  | true =>
    show Lands w all loops _ bound pos seen (if s.isReturn then .error (.returned 0) else .ok (), _)
    rw [hreturn]
    intro t ht
    obtain ⟨n, t', hn, hrun, -, hseen, hret⟩ := hact t ht
    exact ⟨n, t', hn, hrun, hret.trans hreturn, hseen⟩
  | false =>
    show Lands w all loops _ bound pos seen (if s.isReturn then .error (.returned 0) else .ok (), _)
    rw [hreturn]
    intro t ht
    obtain ⟨n, t', hn, hrun, hpc, hseen, hret⟩ := hact t ht
    exact ⟨n, t', hn, hrun, hpc, hseen, hret.trans hreturn⟩

theorem lands_test {c : Expr} {r : Reg} {ls : List Line} {l : Label}
    (h : Placed all pos (.test c r ls :: .line (exitLine r l) :: rest)) :
    Lands w all loops (fun b => if b then pos + 2 else placeOf all l) bound pos seen
    ((tracing w.answers).test c seen) :=
  (reaches_test_exit h).least (Nat.zero_le 1)

theorem lands_test_clear (hkeeps : KeepsTests all) {c : Expr} {r z : Reg}
    {ls : List Line} {l : Label} (hip : z ≠ ip)
    (h : Placed all pos (.test c r ls :: .line (clearLine z) :: .line (exitLine r l) :: rest)) :
    Lands w all loops (fun b => if b then pos + 3 else placeOf all l) bound pos seen
    ((tracing w.answers).test c seen) := by
  have hreach : Reaches w all 0 pos seen _ := (reaches_test_clear_exit h hip).least (Nat.zero_le 1)
  simp only [ne_eq, hkeeps.ne h, not_false_eq_true, and_true] at hreach
  exact hreach

end Statements

/-- From a piece on, the processor follows the flow of a statement, and gets to another piece where
the flow goes on. -/
def Follows (w : Unknowns) (all : List CodePiece) (loops : List LoopLabels) (fuel : Nat) (s : Stmt)
    (pos stop : Nat) : Prop :=
  ∀ seen, Lands w all loops (fun _ => stop) fuel pos seen (s.flow (tracing w.answers) fuel seen)

/-- From a piece on, the processor performs a condition and gets to one of two pieces. -/
def Tests (w : Unknowns) (all : List CodePiece) (loops : List LoopLabels) (fuel : Nat)
    (c : Option Expr) (pos yes no : Nat) : Prop :=
  ∀ seen, Lands w all loops (fun b => if b then yes else no) fuel pos seen
    ((tracing w.answers).testIf c seen)

/-- The processor gets from one piece to another without performing anything. -/
def Passes (w : Unknowns) (all : List CodePiece) (pos stop : Nat) : Prop :=
  ∀ seen, Reaches w all 0 pos seen (At stop seen)

section Forms

variable {loops : List LoopLabels} {labels : LoopLabels} {fuel pos p₁ p₂ q₁ q₂ start stop : Nat}
  {c : Expr} {s t : Stmt}

theorem follows_ifThen (htest : Tests w all loops fuel (some c) pos p₁ p₂)
    (hs : Follows w all loops fuel s p₁ q₁) (h₁ : Passes w all q₁ stop)
    (h₂ : Passes w all p₂ stop) : Follows w all loops fuel (.ifThen c s) pos stop := by
  intro seen
  rw [Stmt.flow]
  refine Lands.bind (htest seen) fun b seen' => ?_
  cases b with
  | true => exact (hs seen').onward fun _ => h₁
  | false => exact h₂ seen'

theorem follows_ifElse (htest : Tests w all loops fuel (some c) pos p₁ p₂)
    (hs : Follows w all loops fuel s p₁ q₁) (ht : Follows w all loops fuel t p₂ q₂)
    (h₁ : Passes w all q₁ stop) (h₂ : Passes w all q₂ stop) :
    Follows w all loops fuel (.ifElse c s t) pos stop := by
  intro seen
  rw [Stmt.flow]
  refine Lands.bind (htest seen) fun b seen' => ?_
  cases b with
  | true => exact (hs seen').onward fun _ => h₁
  | false => exact (ht seen').onward fun _ => h₂

theorem follows_whileLoop (hlabel : ∀ seen, Reaches w all 1 start seen (At (start + 1) seen))
    (htest : Tests w all loops fuel (some c) (start + 1) p₁ p₂)
    (hs : Follows w all (labels :: loops) fuel s p₁ q₁) (hback : Passes w all q₁ start)
    (hnext : Passes w all (placeOf all labels.next) start)
    (hbreak : Passes w all (placeOf all labels.exit) stop) (hexit : Passes w all p₂ stop) :
    Follows w all loops fuel (.whileLoop c s) start stop := by
  intro seen
  rw [Stmt.flow]
  refine Lands.iterate hlabel (fun seen => ?_) (Nat.le_refl fuel) seen
  refine Lands.bind (htest seen) fun b seen' => ?_
  cases b with
  | true => exact Lands.attempt (hs seen') hback hnext hbreak
  | false => exact hexit seen'

theorem follows_doWhile (hlabel : ∀ seen, Reaches w all 1 start seen (At (start + 1) seen))
    (hs : Follows w all (labels :: loops) fuel s (start + 1) q₁)
    (hnext : Passes w all (placeOf all labels.next) q₁)
    (hbreak : Passes w all (placeOf all labels.exit) stop) (hgo : Passes w all q₁ q₂)
    (htest : Tests w all loops fuel (some c) q₂ p₁ p₂) (hback : Passes w all p₁ start)
    (hexit : Passes w all p₂ stop) : Follows w all loops fuel (.doWhile s c) start stop := by
  intro seen
  rw [Stmt.flow]
  refine Lands.iterate hlabel (fun seen => ?_) (Nat.le_refl fuel) seen
  refine Lands.bind (Lands.attempt (hs seen) (Reaches.refl q₁) hnext hbreak) fun b seen' => ?_
  cases b with
  | true =>
    refine ((htest seen').after (hgo seen')).onward fun b seen'' => ?_
    cases b with
    | true => exact hback seen''
    | false => exact hexit seen''
  | false => exact Reaches.refl stop seen'

theorem follows_forLoop {init : Option ForInit} {c : Option Expr} {step : Option ForStep} {q₃ : Nat}
    (hinit : ∀ seen, Lands w all loops (fun _ => start) fuel pos seen
      ((tracing w.answers).actIf (init.map ForInit.toStmt) seen))
    (hlabel : ∀ seen, Reaches w all 1 start seen (At (start + 1) seen))
    (htest : Tests w all loops fuel c (start + 1) p₁ p₂)
    (hs : Follows w all (labels :: loops) fuel s p₁ q₁)
    (hgo : Passes w all q₁ q₂) (hnext : Passes w all (placeOf all labels.next) q₂)
    (hbreak : Passes w all (placeOf all labels.exit) stop)
    (hstep : ∀ seen, Lands w all loops (fun _ => q₃) fuel q₂ seen
      ((tracing w.answers).actIf (step.map ForStep.toStmt) seen))
    (hback : Passes w all q₃ start) (hexit : Passes w all p₂ stop) :
    Follows w all loops fuel (.forLoop init c step s) pos stop := by
  intro seen
  rw [Stmt.flow]
  refine Lands.bind (hinit seen) fun _ seen => ?_
  refine Lands.iterate hlabel (fun seen => ?_) (Nat.le_refl fuel) seen
  refine Lands.bind (htest seen) fun b seen' => ?_
  cases b with
  | true =>
    refine Lands.bind (Lands.attempt (hs seen') hgo hnext hbreak) fun b seen'' => ?_
    cases b with
    | true => exact Lands.bind (hstep seen'') fun _ seen => hback seen
    | false => exact Reaches.refl stop seen''
  | false => exact hexit seen'

end Forms

/-! ### Statements in their place -/

section Layout

variable {loops : List LoopLabels} {fuel pos : Nat} {rest : List CodePiece}

theorem passes_refl (pos : Nat) : Passes w all pos pos := Reaches.refl pos

variable {l exit start : Label} {p q : Nat} {k k₁ : Compiler}

theorem passes_label (h : Placed all pos (.line (.label l) :: rest)) : Passes w all pos (pos + 1) :=
  fun _ => (reaches_label h).least (Nat.zero_le 1)

theorem passes_from_label (h : Placed all pos (.line (.label l) :: rest))
    (hl : placeOf all l = pos) : Passes w all (placeOf all l) (pos + 1) := by
  rw [hl]
  exact passes_label h

theorem passes_jump {stop : Nat} (h : Placed all pos (.line (jumpLine l) :: rest))
    (hl : placeOf all l = stop) : Passes w all pos stop :=
  fun _ => hl ▸ (reaches_jump h).least (Nat.zero_le 1)

theorem Passes.trans {r : Nat} (h : Passes w all p q) (h' : Passes w all q r) : Passes w all p r :=
  fun seen => (h seen).onward (h' seen)

theorem Follows.before {s : Stmt} {r : Nat} (h : Follows w all loops fuel s q r)
    (h' : Passes w all p q) : Follows w all loops fuel s p r :=
  fun seen => (h seen).after (h' seen)

theorem Follows.stop_eq {s : Stmt} {r : Nat} (h : Follows w all loops fuel s p q) (hq : q = r) :
    Follows w all loops fuel s p r := hq ▸ h

theorem tests_exit {c : Expr} {r : Reg} {ls : List Line}
    (h : Placed all pos (.test c r ls :: .line (exitLine r l) :: rest)) :
    Tests w all loops fuel (some c) pos (pos + 2) (placeOf all l) :=
  fun _ => lands_test h

theorem tests_clear_exit (hkeeps : KeepsTests all) {c : Expr} {r z : Reg}
    {ls : List Line} (hip : z ≠ ip)
    (h : Placed all pos (.test c r ls :: .line (clearLine z) :: .line (exitLine r l) :: rest)) :
    Tests w all loops fuel (some c) pos (pos + 3) (placeOf all l) :=
  fun _ => lands_test_clear hkeeps hip h

variable {c : Expr} {s t : Stmt} {r z : Reg} {ls : List Line} {ps qs : List CodePiece}
  {labels : LoopLabels} {stop : Nat}

theorem ifThen_placed (hkeeps : KeepsTests all) (hip : z ≠ ip) {done : Label}
    (h : Placed all pos (.test c r ls :: .line (clearLine z) :: .line (exitLine r done) ::
      (ps ++ [.line (.label done)])))
    (hdone : placeOf all done = pos + 3 + ps.length)
    (hs : Follows w all loops fuel s (pos + 3) (pos + 3 + ps.length)) :
    Follows w all loops fuel (.ifThen c s) pos (pos + 3 + ps.length + 1) := by
  obtain ⟨-, hend⟩ := h.tail.tail.tail.append
  exact follows_ifThen (tests_clear_exit hkeeps hip h) hs (passes_label hend)
    (passes_from_label hend hdone)

theorem ifElse_placed (hkeeps : KeepsTests all) (hip : z ≠ ip) {other done : Label}
    (h : Placed all pos (.test c r ls :: .line (clearLine z) :: .line (exitLine r other) ::
      (ps ++ .line (jumpLine done) :: .line (.label other) :: (qs ++ [.line (.label done)]))))
    (hother : placeOf all other = pos + 3 + ps.length + 1)
    (hdone : placeOf all done = pos + 3 + ps.length + 2 + qs.length)
    (hs : Follows w all loops fuel s (pos + 3) (pos + 3 + ps.length))
    (ht : Follows w all loops fuel t (pos + 3 + ps.length + 2)
      (pos + 3 + ps.length + 2 + qs.length)) :
    Follows w all loops fuel (.ifElse c s t) pos (pos + 3 + ps.length + 2 + qs.length + 1) := by
  obtain ⟨-, hmid⟩ := h.tail.tail.tail.append
  obtain ⟨-, hend⟩ := hmid.tail.tail.append
  exact follows_ifElse (tests_clear_exit hkeeps hip h) hs
    (ht.before (passes_from_label hmid.tail hother))
    ((passes_jump hmid rfl).trans (passes_from_label hend hdone)) (passes_label hend)

theorem whileLoop_placed
    (h : Placed all pos (.line (.label start) :: .test c r ls :: .line (exitLine r exit) ::
      (ps ++ [.line (jumpLine start), .line (.label exit)])))
    (hstart : placeOf all start = pos) (hexit : placeOf all exit = pos + 3 + ps.length + 1)
    (hs : Follows w all (⟨start, exit⟩ :: loops) fuel s (pos + 3) (pos + 3 + ps.length)) :
    Follows w all loops fuel (.whileLoop c s) pos (pos + 3 + ps.length + 2) := by
  obtain ⟨-, hend⟩ := h.tail.tail.tail.append
  have hleave : Passes w all (placeOf all exit) (pos + 3 + ps.length + 2) :=
    passes_from_label hend.tail hexit
  exact follows_whileLoop (fun _ => reaches_label h) (tests_exit h.tail) hs
    (passes_jump hend hstart) (hstart ▸ passes_refl _) hleave hleave

theorem doWhile_placed {test : Label}
    (h : Placed all pos (.line (.label start) :: (ps ++ [.line (.label test), .test c r ls,
      .line (exitLine r exit), .line (jumpLine start), .line (.label exit)])))
    (hstart : placeOf all start = pos) (htest : placeOf all test = pos + 1 + ps.length)
    (hexit : placeOf all exit = pos + 1 + ps.length + 4)
    (hs : Follows w all (⟨test, exit⟩ :: loops) fuel s (pos + 1) (pos + 1 + ps.length)) :
    Follows w all loops fuel (.doWhile s c) pos (pos + 1 + ps.length + 5) := by
  obtain ⟨-, hend⟩ := h.tail.append
  have hleave : Passes w all (placeOf all exit) (pos + 1 + ps.length + 5) :=
    passes_from_label hend.tail.tail.tail.tail hexit
  exact follows_doWhile (fun _ => reaches_label h) hs (htest ▸ passes_refl _) hleave
    (passes_label hend) (tests_exit hend.tail) (passes_jump hend.tail.tail.tail hstart) hleave

theorem LowersStart.lands {init : Option ForInit} (hi : LowersStart init k ps k₁)
    (h : Placed all pos ps) (seen : List Event) :
    Lands w all loops (fun _ => pos + ps.length) fuel pos seen
      ((tracing w.answers).actIf (init.map ForInit.toStmt) seen) := by
  cases hi with
  | none => exact passes_refl pos seen
  | some _ => exact lands_act h

theorem LowersTest.tests (hkeeps : KeepsTests all) {c : Option Expr}
    (ht : LowersTest exit c k ps k₁) (hturn : k.pool.nextTemp < 10) (h : Placed all pos ps) :
    Tests w all loops fuel c pos (pos + ps.length) (placeOf all exit) := by
  cases ht with
  | none => exact fun seen => passes_refl pos seen
  | some hc =>
    exact tests_clear_exit hkeeps
      (RegPool.nth_ne_ip ((Compiler.extends_of_expr hc).turning hturn) 0) h

theorem forLoop_placed (hkeeps : KeepsTests all) {init : Option ForInit} {c : Option Expr}
    {step : Option ForStep} {k₂ k₃ k₄ k₅ : Compiler} {next : Label} {is ts ss : List CodePiece}
    {front back : Nat} (his : LowersStart init k is k₁) (hts : LowersTest exit c k₂ ts k₃)
    (hturn : k₂.pool.nextTemp < 10) (hss : LowersStep next step k₄ ss k₅)
    (hfront : front = pos + is.length) (hback : back = front + 1 + ts.length + ps.length)
    (h : Placed all pos (is ++ .line (.label start) ::
      (ts ++ (ps ++ (ss ++ [.line (jumpLine start), .line (.label exit)])))))
    (hstart : placeOf all start = front) (hexit : placeOf all exit = back + ss.length + 1)
    (hnext : placeOf all next = if step.isSome then back else front)
    (hs : Follows w all (⟨next, exit⟩ :: loops) fuel s (front + 1 + ts.length) back) :
    Follows w all loops fuel (.forLoop init c step s) pos (back + ss.length + 2) := by
  obtain ⟨hinit, h⟩ := h.append
  rw [← hfront] at h
  obtain ⟨htest, hrest⟩ := h.tail.append
  obtain ⟨-, hrest⟩ := hrest.append
  rw [← hback] at hrest
  obtain ⟨hstep, hend⟩ := hrest.append
  have hinit' (seen : List Event) : Lands w all loops (fun _ => front) fuel pos seen _ :=
    hfront ▸ his.lands hinit seen
  have hleave : Passes w all (placeOf all exit) (back + ss.length + 2) :=
    passes_from_label hend.tail hexit
  cases hss with
  | none =>
    have hnext' : Passes w all (placeOf all next) front := hnext ▸ passes_refl front
    exact follows_forLoop hinit' (fun _ => reaches_label h) (hts.tests hkeeps hturn htest) hs
      (passes_jump hend hstart) hnext' hleave (passes_refl front) (passes_refl front) hleave
  | some hst =>
    have hnext' : Passes w all (placeOf all next) back := hnext ▸ passes_refl back
    exact follows_forLoop hinit' (fun _ => reaches_label h) (hts.tests hkeeps hturn htest) hs
      (passes_refl back) hnext' hleave (fun _ => (lands_act hstep.tail).after (reaches_label hstep))
      (passes_jump hend hstart) hleave

end Layout

/-! ### Statement by statement -/

/-- Wherever the pieces of a statement stand, the processor follows the statement's flow through
them. -/
def Goes (w : Unknowns) (all : List CodePiece) (fuel : Nat) (s : Stmt) (k : Compiler)
    (ps : List CodePiece) : Prop :=
  ∀ pos, Placed all pos ps → Unplaced all pos k.labelCount → k.pool.nextTemp < 10 →
    Follows w all k.loops fuel s pos (pos + ps.length)

section Goes

variable {fuel : Nat} {c : Expr} {s t : Stmt} {k k₁ k₂ k₃ : Compiler} {r z : Reg}
  {ps qs : List CodePiece}

theorem goes_cons {ss : List Stmt} (hs : Lowers s k ps k₁) (ihs : Goes w all fuel s k ps)
    (ihss : Goes w all fuel (.block ss) k₁ qs) :
    Goes w all fuel (.block (s :: ss)) k (ps ++ qs) := by
  intro pos hplaced hfree hturn seen
  obtain ⟨hps, hqs⟩ := hplaced.append
  have hext := hs.extends
  have hrest := ihss _ hqs (hfree.after hps hs.segment hext.labels) (hext.turning hturn)
  rw [hext.loops] at hrest
  rw [List.length_append, ← Nat.add_assoc]
  exact Lands.bind (ihs pos hps hfree hturn seen) fun _ => hrest

theorem goes_ifThen (hkeeps : KeepsTests all) {done : Label} (hc : c.compile k = (.ok r, k₁))
    (hz : z = k₁.pool.nth 0) (hdone : done = .minted .endIf (k₁.labelCount + 1))
    (hs : Lowers s (k₁.wrote 1 2 [clearLine z, exitLine r done]) ps k₂)
    (ih : Goes w all fuel s (k₁.wrote 1 2 [clearLine z, exitLine r done]) ps) :
    Goes w all fuel (.ifThen c s) k
      (.test c r (k.added k₁) :: .line (clearLine z) :: .line (exitLine r done) ::
        (ps ++ [.line (.label done)])) := by
  intro pos hplaced hfree hturn
  have hext := Compiler.extends_of_expr hc
  have hn := hext.labels
  have hturn₁ := hext.turning hturn
  obtain ⟨hhead, htail⟩ := Placed.append (show Placed all pos ([_, _, _] ++ (ps ++ _)) from hplaced)
  have hfree₁ := hfree.after hhead
    (.test (m := 0) [clearLine z, exitLine r done] (by simp [clearLine, exitLine]) hc)
    (show _ ≤ (k₁.wrote 1 2 _).labelCount from Nat.le_add_right_of_le hn)
  have hbody := ih _ htail.append.1 hfree₁ (RegPool.skip_lt hturn₁ 1)
  rw [show (k₁.wrote 1 2 _).loops = k.loops from hext.loops] at hbody
  have hps : .line (.label done) ∉ ps := hs.segment.not_placed hdone (Nat.lt_succ_self _)
  have hplace : placeOf all done = pos + 3 + ps.length :=
    hfree.placeOf_eq hdone (by omega)
      (show Placed all pos ((_ :: .line (clearLine z) :: .line (exitLine r done) :: ps) ++ _ :: [])
      from hplaced) (by simp [clearLine, exitLine, hps]) (by simp; omega)
  exact (ifThen_placed hkeeps (hz ▸ RegPool.nth_ne_ip hturn₁ 0) hplaced hplace hbody).stop_eq
    (by simp; omega)

theorem goes_ifElse (hkeeps : KeepsTests all) {other done : Label} (hc : c.compile k = (.ok r, k₁))
    (hz : z = k₁.pool.nth 0) (hother : other = .minted .elseBranch k₁.labelCount)
    (hdone : done = .minted .endIf (k₁.labelCount + 1))
    (hs : Lowers s (k₁.wrote 1 2 [clearLine z, exitLine r other]) ps k₂)
    (ht : Lowers t (k₂.wrote 0 0 [jumpLine done, .label other]) qs k₃)
    (ihs : Goes w all fuel s (k₁.wrote 1 2 [clearLine z, exitLine r other]) ps)
    (iht : Goes w all fuel t (k₂.wrote 0 0 [jumpLine done, .label other]) qs) :
    Goes w all fuel (.ifElse c s t) k
      (.test c r (k.added k₁) :: .line (clearLine z) :: .line (exitLine r other) ::
        (ps ++ .line (jumpLine done) :: .line (.label other) ::
          (qs ++ [.line (.label done)]))) := by
  intro pos hplaced hfree hturn
  have hext := Compiler.extends_of_expr hc
  have hn := hext.labels
  have hn₂ : k₁.labelCount + 2 ≤ k₂.labelCount := hs.segment.labels
  have hturn₁ := hext.turning hturn
  obtain ⟨hhead, htail⟩ := Placed.append (show Placed all pos ([_, _, _] ++ (ps ++ _)) from hplaced)
  obtain ⟨hps, hmid⟩ := htail.append
  obtain ⟨hmid, htail⟩ := Placed.append (show Placed all _ ([_, _] ++ (qs ++ _)) from hmid)
  have hfree₁ := hfree.after hhead
    (.test (m := 0) [clearLine z, exitLine r other] (by simp [clearLine, exitLine]) hc)
    (show _ ≤ (k₁.wrote 1 2 _).labelCount from Nat.le_add_right_of_le hn)
  have hfree₂ := hfree₁.after hps hs.segment hs.segment.labels
  have hfree₃ := hfree₂.after hmid
    (.jumpOver (m := 0) done ⟨_, _, hother, Nat.zero_le _, by omega⟩) (Nat.le_refl _)
  have hbody := ihs _ hps hfree₁ (RegPool.skip_lt hturn₁ 1)
  have hbody' := iht _ htail.append.1 hfree₃ (hs.extends.turning (RegPool.skip_lt hturn₁ 1))
  rw [show (k₁.wrote 1 2 _).loops = k.loops from hext.loops] at hbody
  rw [show (k₂.wrote 0 0 _).loops = k.loops from hs.extends.loops.trans hext.loops] at hbody'
  have hps' : .line (.label other) ∉ ps :=
    hs.segment.not_placed hother (show _ < k₁.labelCount + 2 by omega)
  have hplace : placeOf all other = pos + 3 + ps.length + 1 :=
    hfree.placeOf_eq hother hn
      (show Placed all pos
      ((_ :: .line (clearLine z) :: .line (exitLine r other) :: (ps ++ [.line (jumpLine done)])) ++
        _ :: _) by simpa using hplaced)
      (by simp [clearLine, exitLine, jumpLine, hps']) (by simp; omega)
  have hps'' : .line (.label done) ∉ ps :=
    hs.segment.not_placed hdone (show _ < k₁.labelCount + 2 by omega)
  have hqs : .line (.label done) ∉ qs :=
    ht.segment.not_placed hdone (show _ < k₂.labelCount by omega)
  have hne : done ≠ other := by simp [hother, hdone]
  have hplace' : placeOf all done = pos + 3 + ps.length + 2 + qs.length :=
    hfree.placeOf_eq hdone (by omega)
      (show Placed all pos ((_ :: .line (clearLine z) :: .line (exitLine r other) ::
        (ps ++ .line (jumpLine done) :: .line (.label other) :: qs)) ++ _ :: [])
        by simpa using hplaced)
      (by simp [clearLine, exitLine, jumpLine, hps'', hqs, hne]) (by simp; omega)
  exact (ifElse_placed hkeeps (hz ▸ RegPool.nth_ne_ip hturn₁ 0) hplaced hplace hplace' hbody
    hbody').stop_eq (by simp; omega)

theorem goes_whileLoop {start exit : Label} (hstart : start = .minted .whileStart k.labelCount)
    (hexit : exit = .minted .whileEnd (k.labelCount + 1))
    (hk₁ : k₁ = ((k.wrote 0 2 []).openLoop ⟨start, exit⟩).wrote 0 0 [.label start])
    (hc : c.compile k₁ = (.ok r, k₂)) (hs : Lowers s (k₂.wrote 0 0 [exitLine r exit]) ps k₃)
    (ih : Goes w all fuel s (k₂.wrote 0 0 [exitLine r exit]) ps) :
    Goes w all fuel (.whileLoop c s) k
      (.line (.label start) :: .test c r (k₁.added k₂) :: .line (exitLine r exit) ::
        (ps ++ [.line (jumpLine start), .line (.label exit)])) := by
  intro pos hplaced hfree hturn
  have hext := Compiler.extends_of_expr hc
  have hloops : k₂.loops = ⟨start, exit⟩ :: k.loops := hext.loops.trans (by rw [hk₁]; rfl)
  have hn : k₁.labelCount = k.labelCount + 2 := by rw [hk₁]; rfl
  have hn₂ : k₁.labelCount ≤ k₂.labelCount := hext.labels
  obtain ⟨hlabel, hrest⟩ := Placed.append (show Placed all pos ([_] ++ (_ :: _)) from hplaced)
  obtain ⟨htest, hrest⟩ := Placed.append (show Placed all _ ([_, _] ++ (ps ++ _)) from hrest)
  have hopen : Segment 0 k [.line (.label start)] k₁ :=
    hk₁ ▸ .openLoop _ 2 ⟨_, _, hstart, Nat.zero_le _, by omega⟩
  have hfree₁ := hfree.after hlabel hopen hopen.labels
  have hfree₂ := hfree₁.after htest (.test (m := 0) [exitLine r exit] (by simp [exitLine]) hc)
    (show _ ≤ (k₂.wrote 0 0 _).labelCount from hn₂)
  have hbody := ih _ hrest.append.1 hfree₂ (hext.turning (by rw [hk₁]; exact hturn))
  rw [show (k₂.wrote 0 0 _).loops = _ from hloops] at hbody
  have hps : .line (.label exit) ∉ ps :=
    hs.segment.not_placed hexit (show _ < k₂.labelCount by omega)
  have hne : exit ≠ start := by simp [hstart, hexit]
  have hplace : placeOf all start = pos :=
    hfree.placeOf_eq hstart (Nat.le_refl _)
      (show Placed all pos ([] ++ _ :: _) from hplaced) List.not_mem_nil rfl
  have hplace' : placeOf all exit = pos + 3 + ps.length + 1 :=
    hfree.placeOf_eq hexit (Nat.le_succ _)
      (show Placed all pos ((.line (.label start) :: .test c r _ :: .line (exitLine r exit) ::
        (ps ++ [.line (jumpLine start)])) ++ _ :: []) by simpa using hplaced)
      (by simp [exitLine, jumpLine, hps, hne]) (by simp; omega)
  exact (whileLoop_placed hplaced hplace hplace' hbody).stop_eq (by simp; omega)

theorem goes_doWhile {start test exit : Label} (hstart : start = .minted .doStart k.labelCount)
    (htest : test = .minted .doCondition (k.labelCount + 1))
    (hexit : exit = .minted .doEnd (k.labelCount + 2))
    (hs : Lowers s (((k.wrote 0 3 []).openLoop ⟨test, exit⟩).wrote 0 0 [.label start]) ps k₁)
    (ih : Goes w all fuel s (((k.wrote 0 3 []).openLoop ⟨test, exit⟩).wrote 0 0 [.label start]) ps)
    (ls : List Line) : Goes w all fuel (.doWhile s c) k
      (.line (.label start) :: (ps ++ [.line (.label test), .test c r ls, .line (exitLine r exit),
        .line (jumpLine start), .line (.label exit)])) := by
  intro pos hplaced hfree hturn
  obtain ⟨hlabel, hrest⟩ := Placed.append (show Placed all pos ([_] ++ (ps ++ _)) from hplaced)
  have hopen :
      Segment 0 k [.line (.label start)] (((k.wrote 0 3 []).openLoop ⟨test, exit⟩).wrote 0 0 _) :=
    .openLoop _ 3 ⟨_, _, hstart, Nat.zero_le _, by omega⟩
  have hbody := ih _ hrest.append.1 (hfree.after hlabel hopen hopen.labels) hturn
  have hps : .line (.label test) ∉ ps :=
    hs.segment.not_placed htest (show _ < k.labelCount + 3 by omega)
  have hps' : .line (.label exit) ∉ ps :=
    hs.segment.not_placed hexit (show _ < k.labelCount + 3 by omega)
  have hne : test ≠ start := by simp [hstart, htest]
  have hne' : exit ≠ start ∧ exit ≠ test := by simp [hstart, htest, hexit]
  have hplace : placeOf all start = pos :=
    hfree.placeOf_eq hstart (Nat.le_refl _)
      (show Placed all pos ([] ++ _ :: _) from hplaced) List.not_mem_nil rfl
  have hplace' : placeOf all test = pos + 1 + ps.length :=
    hfree.placeOf_eq htest (by omega)
      (show Placed all pos ((.line (.label start) :: ps) ++ _ :: _) by simpa using hplaced)
      (by simp [hps, hne]) (by simp; omega)
  have hplace'' : placeOf all exit = pos + 1 + ps.length + 4 :=
    hfree.placeOf_eq hexit (by omega)
      (show Placed all pos
      ((.line (.label start) :: (ps ++ [.line (.label test), .test c r ls, .line (exitLine r exit),
        .line (jumpLine start)])) ++ _ :: []) by simpa using hplaced)
      (by simp [exitLine, jumpLine, hps', hne']) (by simp; omega)
  exact (doWhile_placed hplaced hplace hplace' hplace'' hbody).stop_eq (by simp; omega)

theorem LowersStep.label_eq {next l : Label} {step : Option ForStep} {ss : List CodePiece}
    (h : LowersStep next step k ss k₁) (hl : .line (.label l) ∈ ss) : l = next := by
  cases h with
  | none => cases hl
  | some _ => simpa using hl

theorem goes_forLoop (hkeeps : KeepsTests all) {init : Option ForInit} {c : Option Expr}
    {step : Option ForStep} {k₄ k₅ : Compiler} {start next exit : Label} {is ts ss : List CodePiece}
    (his : LowersStart init k is k₁) (hstart : start = .minted .forStart k₁.labelCount)
    (hnext : Compile.stepLabel start step (k₁.wrote 0 1 []) = (.ok next, k₂))
    (hexit : exit = .minted .forEnd k₂.labelCount)
    (hts :
      LowersTest exit c (((k₂.wrote 0 1 []).openLoop ⟨next, exit⟩).wrote 0 0 [.label start]) ts k₃)
    (hs : Lowers s k₃ ps k₄) (hss : LowersStep next step k₄ ss k₅) (ih : Goes w all fuel s k₃ ps) :
    Goes w all fuel (.forLoop init c step s) k
      (is ++ .line (.label start) ::
        (ts ++ (ps ++ (ss ++ [.line (jumpLine start), .line (.label exit)])))) := by
  intro pos hplaced hfree hturn
  have hn := his.extends.labels
  have hlabels := extends_of_stepLabel hnext
  have hn₂ : k₁.labelCount + 1 ≤ k₂.labelCount := hlabels.labels
  have hn₃ : k₂.labelCount + 1 ≤ k₃.labelCount := hts.extends.labels
  have hturn₂ : k₂.pool.nextTemp < 10 := hlabels.turning (his.extends.turning hturn)
  have hloops : k₃.loops = ⟨next, exit⟩ :: k.loops :=
    hts.extends.loops.trans (congrArg _ (hlabels.loops.trans his.extends.loops))
  obtain ⟨hinit, hrest⟩ := hplaced.append
  obtain ⟨hlabel, hrest⟩ := Placed.append (show Placed all _ ([_] ++ (ts ++ _)) from hrest)
  obtain ⟨htest, hrest⟩ := hrest.append
  have hopen :
      Segment 0 k₂ [.line (.label start)] (((k₂.wrote 0 1 []).openLoop ⟨next, exit⟩).wrote 0 0 _) :=
    .openLoop _ 1 ⟨_, _, hstart, Nat.zero_le _, by omega⟩
  have hfree₁ := hfree.after hinit (his.segment 0) hn
  have hfree₂ := hfree₁.after hlabel hopen (show _ ≤ k₂.labelCount + 1 by omega)
  have hfree₃ := hfree₂.after htest (hts.segment 0) hts.extends.labels
  have hbody := ih _ hrest.append.1 hfree₃ (hts.extends.turning hturn₂)
  rw [hloops] at hbody
  have hplace : placeOf all start = pos + is.length :=
    hfree₁.placeOf_eq hstart (Nat.le_refl _)
      (show Placed all _ ([] ++ _ :: _) from hplaced.append.2) List.not_mem_nil rfl
  -- Only the start of the loop is placed before its body.
  have hfront : ∀ l stem i, l = .minted stem i → i < k₃.labelCount → l ≠ start →
      .line (.label l) ∉ .line (.label start) :: (ts ++ ps) := by
    intro l stem i hl hi hne hmem
    rcases List.mem_cons.mp hmem with heq | hmem
    · cases heq
      exact hne rfl
    · rcases List.mem_append.mp hmem with hmem | hmem
      · exact (hts.segment (i + 1)).not_placed hl (Nat.lt_succ_self i) hmem
      · exact hs.segment.not_placed hl hi hmem
  have hplaceNext : placeOf all next = if step.isSome
      then pos + is.length + 1 + ts.length + ps.length else pos + is.length := by
    rcases stepLabel_cases hnext with ⟨rfl, rfl, -⟩ | ⟨⟨st, rfl⟩, hnext', hk₂⟩
    · exact hplace
    · have hcount : k₂.labelCount = k₁.labelCount + 2 := by rw [hk₂]; rfl
      have hne : next ≠ start := by simp [hnext', hstart]
      have hfree' := hfront next _ _ hnext' (show k₁.labelCount + 1 < _ by omega) hne
      cases hss with
      | some _ =>
        exact hfree₁.placeOf_eq hnext' (Nat.le_succ _)
          (show Placed all _ ((.line (.label start) :: (ts ++ ps)) ++ _ :: _)
            by simpa using hplaced.append.2) hfree' (by simp; omega)
  have hss' : .line (.label exit) ∉ ss := by
    intro hmem
    have heq := hss.label_eq hmem
    rcases stepLabel_cases hnext with ⟨-, rfl, -⟩ | ⟨-, rfl, -⟩
    · exact nomatch hexit.symm.trans (heq.trans hstart)
    · exact nomatch hexit.symm.trans heq
  have hplaceExit :
      placeOf all exit = pos + is.length + 1 + ts.length + ps.length + ss.length + 1 := by
    have hfree' := hfront exit _ _ hexit (by omega) (by simp [hexit, hstart])
    refine hfree₁.placeOf_eq hexit (by omega)
      (show Placed all
      _ (((.line (.label start) :: (ts ++ ps)) ++ (ss ++ [.line (jumpLine start)])) ++ _ :: [])
        by simpa using hplaced.append.2) ?_ (by simp; omega)
    simpa [jumpLine, hss'] using hfree'
  exact (forLoop_placed hkeeps his hts hturn₂ hss rfl rfl hplaced hplace hplaceExit hplaceNext
    hbody).stop_eq (by simp; omega)

end Goes

theorem Lowers.goes (hkeeps : KeepsTests all) {s : Stmt} {k k' : Compiler} {ps : List CodePiece}
    (h : Lowers s k ps k') (fuel : Nat) : Goes w all fuel s k ps := by
  induction h with
  | leaf hleaf hs =>
    intro pos hplaced _ _ seen
    rw [Stmt.flow_leaf hleaf]
    exact lands_act hplaced
  | breakLoop hloops | continueLoop hloops =>
    intro pos hplaced _ _ seen
    exact ⟨_, hloops, (reaches_jump hplaced).least (Nat.zero_le 1)⟩
  | nil => exact fun pos _ _ _ seen => Reaches.refl pos seen
  | cons hs _ ihs ihss => exact goes_cons hs ihs ihss
  | ifThen hc hz hdone hs ih => exact goes_ifThen hkeeps hc hz hdone hs ih
  | ifElse hc hz hother hdone hs ht ihs iht =>
    exact goes_ifElse hkeeps hc hz hother hdone hs ht ihs iht
  | whileLoop hstart hexit hk₁ hc hs ih => exact goes_whileLoop hstart hexit hk₁ hc hs ih
  | doWhile hstart htest hexit hs _ _ ih => exact goes_doWhile hstart htest hexit hs ih _
  | forLoop his hstart hnext hexit hts hs hss ih =>
    exact goes_forLoop hkeeps his hstart hnext hexit hts hs hss ih

end WordC
