import WordC.Proofs.CompileSteps
import WordC.Proofs.Flow
import WordC.Proofs.TestCode

/-!
# The code of statements, in pieces

The code of a statement falls into pieces: the lines of each action and of each condition in it,
which are left as they are, and the single lines of the jumps and labels around them. `Lowers`
follows the compiler through a statement and tells the pieces apart; `compile_lowers` says that it
does so for whatever the compiler accepts, and the pieces together are the lines that the compiler
adds.
-/

namespace WordC

open Asm Compile Step

inductive CodePiece where
  | act (s : Stmt) (lines : List Line)
  /-- The lines of a condition and the register that they leave its value in. -/
  | test (c : Expr) (r : Reg) (lines : List Line)
  | line (l : Line)

namespace CodePiece

def lines : CodePiece → List Line
  | act _ ls | test _ _ ls => ls
  | line l => [l]

end CodePiece

/-! ### Lines between the pieces -/

def clearLine (z : Reg) : Line := .instr (.mov z (.imm 0))

def jumpLine (l : Label) : Line := .instr (.mov ip (.addr l))

def exitLine (r : Reg) (l : Label) : Line := .instr (.movZero ip r (.addr l))

namespace Compiler

/-- The lines that a later state of a compiler has behind those of an earlier one. -/
def added (c c' : Compiler) : List Line := c'.code.toList.drop c.code.size

def openLoop (c : Compiler) (labels : LoopLabels) : Compiler :=
  { c with loops := labels :: c.loops }

def closeLoop (c : Compiler) : Compiler := { c with loops := c.loops.tail }

end Compiler

/-! ### Statements in pieces -/

/-- What the head of a `for` does once. -/
inductive LowersStart : Option ForInit → Compiler → List CodePiece → Compiler → Prop
  | none {k : Compiler} : LowersStart none k [] k
  | some {i : ForInit} {k k₁ : Compiler} : i.toStmt.compile k = (.ok (), k₁) →
      LowersStart (some i) k [.act i.toStmt (k.added k₁)] k₁

/-- The condition in the head of a `for`. -/
inductive LowersTest (exit : Label) : Option Expr → Compiler → List CodePiece → Compiler → Prop
  | none {k : Compiler} : LowersTest exit none k [] k
  | some {c : Expr} {k k₁ : Compiler} {r : Reg} : c.compile k = (.ok r, k₁) →
      LowersTest exit (some c) k
        [.test c r (k.added k₁), .line (clearLine (k₁.pool.nth 0)), .line (exitLine r exit)]
        (k₁.wrote 1 0 [clearLine (k₁.pool.nth 0), exitLine r exit])

/-- What the head of a `for` does after each round. -/
inductive LowersStep (next : Label) : Option ForStep → Compiler → List CodePiece → Compiler → Prop
  | none {k : Compiler} : LowersStep next none k [] k
  | some {st : ForStep} {k k₁ : Compiler} :
      st.toStmt.compile (k.wrote 0 0 [.label next]) = (.ok (), k₁) →
      LowersStep next (some st) k
        [.line (.label next), .act st.toStmt ((k.wrote 0 0 [.label next]).added k₁)] k₁

/-- The pieces of a statement, and what the compiler is before and behind it. -/
inductive Lowers : Stmt → Compiler → List CodePiece → Compiler → Prop
  | leaf {s : Stmt} {k k₁ : Compiler} : s.isLeaf = true → s.compile k = (.ok (), k₁) →
      Lowers s k [.act s (k.added k₁)] k₁
  | breakLoop {k : Compiler} {labels : LoopLabels} : k.loops.head? = some labels →
      Lowers .breakLoop k [.line (jumpLine labels.exit)] (k.wrote 0 0 [jumpLine labels.exit])
  | continueLoop {k : Compiler} {labels : LoopLabels} : k.loops.head? = some labels →
      Lowers .continueLoop k [.line (jumpLine labels.next)] (k.wrote 0 0 [jumpLine labels.next])
  | nil {k : Compiler} : Lowers (.block []) k [] k
  | cons {s : Stmt} {ss : List Stmt} {k k₁ k₂ : Compiler} {ps qs : List CodePiece} :
      Lowers s k ps k₁ → Lowers (.block ss) k₁ qs k₂ → Lowers (.block (s :: ss)) k (ps ++ qs) k₂
  | ifThen {c : Expr} {s : Stmt} {k k₁ k₂ : Compiler} {r z : Reg} {done : Label}
      {ps : List CodePiece} :
      c.compile k = (.ok r, k₁) → z = k₁.pool.nth 0 → done = .minted .endIf (k₁.labelCount + 1) →
      Lowers s (k₁.wrote 1 2 [clearLine z, exitLine r done]) ps k₂ →
      Lowers (.ifThen c s) k
        (.test c r (k.added k₁) :: .line (clearLine z) :: .line (exitLine r done) ::
        (ps ++ [.line (.label done)])) (k₂.wrote 0 0 [.label done])
  | ifElse {c : Expr} {s t : Stmt} {k k₁ k₂ k₃ : Compiler} {r z : Reg} {other done : Label}
      {ps qs : List CodePiece} :
      c.compile k = (.ok r, k₁) → z = k₁.pool.nth 0 → other = .minted .elseBranch k₁.labelCount →
      done = .minted .endIf (k₁.labelCount + 1) →
      Lowers s (k₁.wrote 1 2 [clearLine z, exitLine r other]) ps k₂ →
      Lowers t (k₂.wrote 0 0 [jumpLine done, .label other]) qs k₃ →
      Lowers (.ifElse c s t) k
        (.test c r (k.added k₁) :: .line (clearLine z) :: .line (exitLine r other) ::
          (ps ++ .line (jumpLine done) :: .line (.label other) :: (qs ++ [.line (.label done)])))
        (k₃.wrote 0 0 [.label done])
  | whileLoop {c : Expr} {s : Stmt} {k k₁ k₂ k₃ : Compiler} {r : Reg} {start exit : Label}
      {ps : List CodePiece} :
      start = .minted .whileStart k.labelCount → exit = .minted .whileEnd (k.labelCount + 1) →
      k₁ = ((k.wrote 0 2 []).openLoop ⟨start, exit⟩).wrote 0 0 [.label start] →
      c.compile k₁ = (.ok r, k₂) → Lowers s (k₂.wrote 0 0 [exitLine r exit]) ps k₃ →
      Lowers (.whileLoop c s) k
        (.line (.label start) :: .test c r (k₁.added k₂) :: .line (exitLine r exit) ::
          (ps ++ [.line (jumpLine start), .line (.label exit)]))
        (k₃.wrote 0 0 [jumpLine start, .label exit]).closeLoop
  | doWhile {c : Expr} {s : Stmt} {k k₁ k₂ k₃ : Compiler} {r : Reg} {start test exit : Label}
      {ps : List CodePiece} :
      start = .minted .doStart k.labelCount → test = .minted .doCondition (k.labelCount + 1) →
      exit = .minted .doEnd (k.labelCount + 2) →
      Lowers s (((k.wrote 0 3 []).openLoop ⟨test, exit⟩).wrote 0 0 [.label start]) ps k₁ →
      k₂ = k₁.wrote 0 0 [.label test] → c.compile k₂ = (.ok r, k₃) →
      Lowers (.doWhile s c) k
        (.line (.label start) ::
        (ps ++ [.line (.label test), .test c r (k₂.added k₃), .line (exitLine r exit),
          .line (jumpLine start), .line (.label exit)]))
        (k₃.wrote 0 0 [exitLine r exit, jumpLine start, .label exit]).closeLoop
  | forLoop {init : Option ForInit} {c : Option Expr} {step : Option ForStep} {s : Stmt}
      {k k₁ k₂ k₃ k₄ k₅ : Compiler} {start next exit : Label} {is ts ps ss : List CodePiece} :
      LowersStart init k is k₁ → start = .minted .forStart k₁.labelCount →
      stepLabel start step (k₁.wrote 0 1 []) = (.ok next, k₂) →
      exit = .minted .forEnd k₂.labelCount →
      LowersTest exit c (((k₂.wrote 0 1 []).openLoop ⟨next, exit⟩).wrote 0 0 [.label start]) ts k₃ →
      Lowers s k₃ ps k₄ → LowersStep next step k₄ ss k₅ →
      Lowers (.forLoop init c step s) k
        (is ++ .line (.label start) ::
        (ts ++ (ps ++ (ss ++ [.line (jumpLine start), .line (.label exit)]))))
        (k₅.wrote 0 0 [jumpLine start, .label exit]).closeLoop

/-! ### What the compiler accepts falls into pieces -/

namespace Compiler

theorem mint_eq (c : Compiler) (stem : Stem) :
    mint stem c = (.ok (.minted stem c.labelCount), c.wrote 0 1 []) := by
  have h := mint_wrote c 0 0 [] stem
  rwa [wrote_nothing] at h

theorem emit_eq (c : Compiler) (i : Instr) : emit i c = (.ok (), c.wrote 0 0 [.instr i]) := by
  have h := emit_wrote c 0 0 [] i
  rwa [wrote_nothing] at h

theorem place_eq (c : Compiler) (l : Label) : place l c = (.ok (), c.wrote 0 0 [.label l]) := by
  have h := place_wrote c 0 0 [] l
  rwa [wrote_nothing] at h

end Compiler

section Accepted

open Compiler

theorem forStart_lowers {init : Option ForInit} {k k₁ : Compiler}
    (h : forStart init k = (.ok (), k₁)) : ∃ is, LowersStart init k is k₁ := by
  cases init with
  | none =>
    obtain ⟨-, rfl⟩ := Prod.mk.inj h
    exact ⟨_, .none⟩
  | some i =>
    refine ⟨_, .some ?_⟩
    cases i <;> exact h

theorem forTest_lowers {exit : Label} {c : Option Expr} {k k₁ : Compiler}
    (h : forTest exit c k = (.ok (), k₁)) : ∃ ts, LowersTest exit c k ts k₁ := by
  cases c with
  | none =>
    obtain ⟨-, rfl⟩ := Prod.mk.inj h
    exact ⟨_, .none⟩
  | some c =>
    obtain ⟨r, k₂, hc, h⟩ := bind_eq_ok h
    rw [bind_ok (temp_eq _), bind_ok (emit_wrote ..), jumpIfZero, emit_wrote] at h
    obtain ⟨-, rfl⟩ := Prod.mk.inj h
    exact ⟨_, .some hc⟩

theorem forNext_lowers {next : Label} {step : Option ForStep} {k k₁ : Compiler}
    (h : forNext next step k = (.ok (), k₁)) : ∃ ss, LowersStep next step k ss k₁ := by
  cases step with
  | none =>
    obtain ⟨-, rfl⟩ := Prod.mk.inj h
    exact ⟨_, .none⟩
  | some st =>
    rw [forNext, bind_ok (place_eq _ _)] at h
    refine ⟨_, .some ?_⟩
    cases st <;> exact h

/-- A loop that is left again with what its steps wrote. -/
theorem inLoop_eq_ok {α : Type} {labels : LoopLabels} {x : Compile α} {a : α} {k k' : Compiler}
    (h : inLoop labels x k = (.ok a, k')) :
    ∃ k₁, x (k.openLoop labels) = (.ok a, k₁) ∧ k' = k₁.closeLoop := by
  obtain ⟨hok, hstate⟩ := Prod.mk.inj h
  exact ⟨_, Prod.ext hok rfl, hstate.symm⟩

theorem compileAll_lowers {ss : List Stmt}
    (ih : ∀ s ∈ ss, ∀ {k k' : Compiler}, s.compile k = (.ok (), k') → ∃ ps, Lowers s k ps k') :
    ∀ {k k' : Compiler}, Stmt.compileAll ss k = (.ok (), k') →
    ∃ ps, Lowers (.block ss) k ps k' := by
  induction ss with
  | nil =>
    intro k k' h
    obtain ⟨-, rfl⟩ := Prod.mk.inj h
    exact ⟨[], .nil⟩
  | cons s ss ihss =>
    intro k k' h
    rw [Stmt.compileAll] at h
    obtain ⟨_, k₁, hs, hss⟩ := bind_eq_ok h
    obtain ⟨ps, hps⟩ := ih s (List.mem_cons_self ..) hs
    obtain ⟨qs, hqs⟩ := ihss (fun t ht => ih t (List.mem_cons_of_mem s ht)) hss
    exact ⟨ps ++ qs, .cons hps hqs⟩

theorem compile_lowers (s : Stmt) :
    ∀ {k k' : Compiler}, s.compile k = (.ok (), k') → ∃ ps, Lowers s k ps k' := by
  induction s with
  | ifThen c s ih =>
    intro k k' h
    rw [Stmt.compile] at h
    obtain ⟨r, k₁, hc, h⟩ := bind_eq_ok h
    rw [bind_ok (mint_eq _ _), bind_ok (mint_wrote ..), bind_ok (temp_wrote ..),
      bind_ok (emit_wrote ..), jumpIfZero, bind_ok (emit_wrote ..)] at h
    obtain ⟨_, k₂, hs, h⟩ := bind_eq_ok h
    rw [place_eq] at h
    obtain ⟨-, rfl⟩ := Prod.mk.inj h
    obtain ⟨ps, hps⟩ := ih hs
    exact ⟨_, .ifThen hc rfl rfl hps⟩
  | ifElse c s t ihs iht =>
    intro k k' h
    rw [Stmt.compile] at h
    obtain ⟨r, k₁, hc, h⟩ := bind_eq_ok h
    rw [bind_ok (mint_eq _ _), bind_ok (mint_wrote ..), bind_ok (temp_wrote ..),
      bind_ok (emit_wrote ..), jumpIfZero, bind_ok (emit_wrote ..)] at h
    obtain ⟨_, k₂, hs, h⟩ := bind_eq_ok h
    rw [jump, bind_ok (emit_eq _ _), bind_ok (place_wrote ..)] at h
    obtain ⟨_, k₃, ht, h⟩ := bind_eq_ok h
    rw [place_eq] at h
    obtain ⟨-, rfl⟩ := Prod.mk.inj h
    obtain ⟨ps, hps⟩ := ihs hs
    obtain ⟨qs, hqs⟩ := iht ht
    exact ⟨_, .ifElse hc rfl rfl rfl hps hqs⟩
  | whileLoop c s ih =>
    intro k k' h
    rw [Stmt.compile, bind_ok (mint_eq _ _), bind_ok (mint_wrote ..)] at h
    obtain ⟨k₁, hin, rfl⟩ := inLoop_eq_ok h
    rw [bind_ok (place_eq _ _)] at hin
    obtain ⟨_, k₂, htest, hin⟩ := bind_eq_ok hin
    obtain ⟨r, k₃, hc, hexit⟩ := bind_eq_ok htest
    rw [jumpIfZero, emit_eq] at hexit
    obtain ⟨-, rfl⟩ := Prod.mk.inj hexit
    obtain ⟨_, k₄, hs, hin⟩ := bind_eq_ok hin
    rw [jump, bind_ok (emit_eq _ _), place_wrote] at hin
    obtain ⟨-, rfl⟩ := Prod.mk.inj hin
    obtain ⟨ps, hps⟩ := ih hs
    exact ⟨_, .whileLoop rfl rfl rfl hc hps⟩
  | doWhile s c ih =>
    intro k k' h
    rw [Stmt.compile, bind_ok (mint_eq _ _), bind_ok (mint_wrote ..), bind_ok (mint_wrote ..)] at h
    obtain ⟨k₁, hin, rfl⟩ := inLoop_eq_ok h
    rw [bind_ok (place_eq _ _)] at hin
    obtain ⟨_, k₂, hs, hin⟩ := bind_eq_ok hin
    rw [bind_ok (place_eq _ _)] at hin
    obtain ⟨_, k₃, htest, hin⟩ := bind_eq_ok hin
    obtain ⟨r, k₄, hc, hexit⟩ := bind_eq_ok htest
    rw [jumpIfZero, emit_eq] at hexit
    obtain ⟨-, rfl⟩ := Prod.mk.inj hexit
    rw [jump, bind_ok (emit_wrote ..), place_wrote] at hin
    obtain ⟨-, rfl⟩ := Prod.mk.inj hin
    obtain ⟨ps, hps⟩ := ih hs
    exact ⟨_, .doWhile rfl rfl rfl hps rfl hc⟩
  | forLoop init c step s ih =>
    intro k k' h
    rw [Stmt.compile_forLoop] at h
    obtain ⟨_, k₁, hinit, h⟩ := bind_eq_ok h
    rw [bind_ok (mint_eq _ _)] at h
    obtain ⟨next, k₂, hnext, h⟩ := bind_eq_ok h
    rw [bind_ok (mint_eq _ _)] at h
    obtain ⟨k₃, hin, rfl⟩ := inLoop_eq_ok h
    rw [bind_ok (place_eq _ _)] at hin
    obtain ⟨_, k₄, htest, hin⟩ := bind_eq_ok hin
    obtain ⟨_, k₅, hs, hin⟩ := bind_eq_ok hin
    obtain ⟨_, k₆, hstep, hin⟩ := bind_eq_ok hin
    rw [jump, bind_ok (emit_eq _ _), place_wrote] at hin
    obtain ⟨-, rfl⟩ := Prod.mk.inj hin
    obtain ⟨is, his⟩ := forStart_lowers hinit
    obtain ⟨ts, hts⟩ := forTest_lowers htest
    obtain ⟨ps, hps⟩ := ih hs
    obtain ⟨ss, hss⟩ := forNext_lowers hstep
    exact ⟨_, .forLoop his rfl hnext rfl hts hps hss⟩
  | block ss ih =>
    intro k k' h
    rw [Stmt.compile] at h
    exact compileAll_lowers (fun t ht => ih t ht) h
  | breakLoop =>
    intro k k' h
    rw [Stmt.compile, bind_ok (get_apply k)] at h
    rcases hloops : k.loops with _ | ⟨labels, rest⟩
    · rw [hloops] at h
      cases congrArg Prod.fst h
    · rw [hloops] at h
      obtain ⟨-, rfl⟩ := Prod.mk.inj ((emit_eq k _).symm.trans h)
      exact ⟨_, .breakLoop (by rw [hloops]; rfl)⟩
  | continueLoop =>
    intro k k' h
    rw [Stmt.compile, bind_ok (get_apply k)] at h
    rcases hloops : k.loops with _ | ⟨labels, rest⟩
    · rw [hloops] at h
      cases congrArg Prod.fst h
    · rw [hloops] at h
      obtain ⟨-, rfl⟩ := Prod.mk.inj ((emit_eq k _).symm.trans h)
      exact ⟨_, .continueLoop (by rw [hloops]; rfl)⟩
  | decl | assign | assignIndex | assignDeref | ret | call | increment | decrement | asm | hole =>
    exact fun h => ⟨_, .leaf rfl h⟩

end Accepted

/-! ### What the pieces tell of the compiler -/

namespace Compiler

theorem Extends.code_eq {k k' : Compiler} (h : k.Extends k') :
    k'.code.toList = k.code.toList ++ k.added k' := by
  obtain ⟨rest, hrest⟩ := h.code
  have hadded : k.added k' = rest := by
    rw [added, ← hrest, ← Array.length_toList, List.drop_left]
  rw [hadded, hrest]

theorem extends_wrote (k : Compiler) (draws labels : Nat) (ls : List Line) :
    k.Extends (k.wrote draws labels ls) := by
  refine ⟨rfl, rfl, rfl, Nat.le_add_right _ _, ?_, List.prefix_refl _,
    fun h => RegPool.skip_lt h draws⟩
  simp [wrote]

theorem Extends.inLoop {labels : LoopLabels} {k k' : Compiler}
    (h : (k.openLoop labels).Extends k') : k.Extends k'.closeLoop :=
  ⟨congrArg List.tail h.loops, h.current, h.functions, h.labels, h.code, h.data, h.turning⟩

theorem extends_of_expr {c : Expr} {k k' : Compiler} {r : Reg} (h : c.compile k = (.ok r, k')) :
    k.Extends k' := by
  have hkept := c.keeps_compile k
  rwa [h] at hkept

theorem extends_of_stmt {s : Stmt} {k k' : Compiler} (h : s.compile k = (.ok (), k')) :
    k.Extends k' := by
  have hkept := s.keeps_compile k
  rwa [h] at hkept

end Compiler

/-- Pieces that are the lines which a part of the compilation adds. The labels among them have
numbers from `m` on which have been given out. -/
structure Segment (m : Nat) (k : Compiler) (ps : List CodePiece) (k' : Compiler) : Prop where
  code : k'.code.toList = k.code.toList ++ ps.flatMap CodePiece.lines
  labels : k.labelCount ≤ k'.labelCount
  placed : ∀ l, .line (.label l) ∈ ps → ∃ stem n, l = .minted stem n ∧ m ≤ n ∧ n < k'.labelCount

namespace Segment

variable {m m' : Nat} {k k₁ k₂ : Compiler} {ps qs : List CodePiece}

theorem weaken (h : Segment m k ps k₁) (hm : m' ≤ m) : Segment m' k ps k₁ where
  code := h.code
  labels := h.labels
  placed l hl := by
    obtain ⟨stem, n, heq, hle, hlt⟩ := h.placed l hl
    exact ⟨stem, n, heq, Nat.le_trans hm hle, hlt⟩

theorem append (h : Segment m k ps k₁) (h' : Segment m k₁ qs k₂) : Segment m k (ps ++ qs) k₂ where
  code := by rw [h'.code, h.code, List.flatMap_append, List.append_assoc]
  labels := Nat.le_trans h.labels h'.labels
  placed l hl := by
    rcases List.mem_append.mp hl with hl | hl
    · obtain ⟨stem, n, heq, hle, hlt⟩ := h.placed l hl
      exact ⟨stem, n, heq, hle, Nat.lt_of_lt_of_le hlt h'.labels⟩
    · exact h'.placed l hl

theorem nil : Segment m k [] k := ⟨(List.append_nil _).symm, Nat.le_refl _, nofun⟩

theorem act {s : Stmt} (h : s.compile k = (.ok (), k₁)) : Segment m k [.act s (k.added k₁)] k₁ := by
  have hext := Compiler.extends_of_stmt h
  refine ⟨?_, hext.labels, by simp⟩
  simpa [CodePiece.lines] using hext.code_eq

theorem wrote {draws labels : Nat} (ls : List Line)
    (h : ∀ l, .label l ∈ ls → ∃ stem n, l = .minted stem n ∧ m ≤ n ∧ n < k.labelCount + labels) :
    Segment m k (ls.map .line) (k.wrote draws labels ls) := by
  refine ⟨?_, Nat.le_add_right _ _, ?_⟩
  · simp [Compiler.wrote, List.flatMap_map, CodePiece.lines]
  · intro l hl
    exact h l (by simpa using hl)

theorem label {l : Label} (h : ∃ stem n, l = .minted stem n ∧ m ≤ n ∧ n < k.labelCount) :
    Segment m k [.line (.label l)] (k.wrote 0 0 [.label l]) := by
  refine wrote [.label l] fun l' hl => ?_
  obtain rfl : l' = l := by simpa using hl
  exact h

/-- A condition with the lines behind it that go where it does not hold. -/
theorem test {c : Expr} {r : Reg} {draws labels : Nat} (ls : List Line) (hls : ∀ l, .label l ∉ ls)
    (h : c.compile k = (.ok r, k₁)) :
    Segment m k (.test c r (k.added k₁) :: ls.map .line) (k₁.wrote draws labels ls) := by
  have hext := Compiler.extends_of_expr h
  have hcond : Segment m k [.test c r (k.added k₁)] k₁ := by
    refine ⟨?_, hext.labels, by simp⟩
    simpa [CodePiece.lines] using hext.code_eq
  exact hcond.append (wrote ls fun l hl => absurd hl (hls l))

/-- A jump with a label behind it. -/
theorem jumpOver (target : Label) {l : Label}
    (h : ∃ stem n, l = .minted stem n ∧ m ≤ n ∧ n < k.labelCount) : Segment m k
    [.line (jumpLine target), .line (.label l)] (k.wrote 0 0 [jumpLine target, .label l]) := by
  refine wrote [jumpLine target, .label l] fun l' hl => ?_
  obtain rfl : l' = l := by simpa [jumpLine] using hl
  exact h

/-- A loop opens with its labels and the one of its start. -/
theorem openLoop (labels : LoopLabels) (n : Nat) {start : Label}
    (h : ∃ stem i, start = .minted stem i ∧ m ≤ i ∧ i < k.labelCount + n) : Segment m k
    [.line (.label start)] (((k.wrote 0 n []).openLoop labels).wrote 0 0 [.label start]) := by
  have hmint : Segment m k [] (k.wrote 0 n []) := wrote [] nofun
  have hlabel : Segment m ((k.wrote 0 n []).openLoop labels) [.line (.label start)] _ := label h
  exact hmint.append ⟨hlabel.code, hlabel.labels, hlabel.placed⟩

theorem closeLoop (h : Segment m k ps k₁) : Segment m k ps k₁.closeLoop :=
  ⟨h.code, h.labels, h.placed⟩

end Segment

variable {k k₁ : Compiler} {next : Label} {step : Option ForStep}

theorem LowersStart.segment {init : Option ForInit} {is : List CodePiece}
    (h : LowersStart init k is k₁) (m : Nat) : Segment m k is k₁ := by
  cases h with
  | none => exact .nil
  | some hi => exact .act hi

theorem LowersTest.segment {exit : Label} {c : Option Expr} {ts : List CodePiece}
    (h : LowersTest exit c k ts k₁) (m : Nat) : Segment m k ts k₁ := by
  cases h with
  | none => exact .nil
  | some hc => exact .test [clearLine _, exitLine _ _] (by simp [clearLine, exitLine]) hc

theorem LowersStep.segment {ss : List CodePiece} {m : Nat} (h : LowersStep next step k ss k₁)
    (hnext : ∀ st, step = Option.some st →
      ∃ stem n, next = .minted stem n ∧ m ≤ n ∧ n < k.labelCount) : Segment m k ss k₁ := by
  cases h with
  | none => exact .nil
  | some hst => exact (Segment.label (hnext _ rfl)).append (.act hst)

/-- The label of the step is a new one or there is none, and then a `continue` goes to the start. -/
theorem stepLabel_cases {start : Label}
    (h : stepLabel start step k = (.ok next, k₁)) :
    (step = none ∧ next = start ∧ k₁ = k) ∨
      ((∃ st, step = some st) ∧ next = .minted .forIncrement k.labelCount ∧
        k₁ = k.wrote 0 1 []) := by
  cases step with
  | none =>
    obtain ⟨hnext, hk⟩ := Prod.mk.inj h
    exact .inl ⟨rfl, (Except.ok.inj hnext).symm, hk.symm⟩
  | some st =>
    obtain ⟨hnext, hk⟩ := Prod.mk.inj ((Compiler.mint_eq k _).symm.trans h)
    exact .inr ⟨⟨st, rfl⟩, (Except.ok.inj hnext).symm, hk.symm⟩

theorem Lowers.segment {s : Stmt} {k' : Compiler} {ps : List CodePiece} (h : Lowers s k ps k') :
    Segment k.labelCount k ps k' := by
  induction h with
  | leaf _ hs => exact .act hs
  | breakLoop | continueLoop => exact .wrote [jumpLine _] (by simp [jumpLine])
  | nil => exact .nil
  | cons _ _ ihs ihss => exact ihs.append (ihss.weaken ihs.labels)
  | @ifThen c s k k₁ k₂ r z done ps hc hz hdone hs ih =>
    have htest : Segment k.labelCount k _ (k₁.wrote 1 2 _) :=
      .test [clearLine z, exitLine r done] (by simp [clearLine, exitLine]) hc
    have hn : k.labelCount ≤ k₁.labelCount := (Compiler.extends_of_expr hc).labels
    have hn' : k₁.labelCount + 2 ≤ k₂.labelCount := ih.labels
    have hend : Segment k.labelCount k₂ _ _ := .label ⟨_, _, hdone, by omega, by omega⟩
    exact htest.append ((ih.weaken htest.labels).append hend)
  | @ifElse c s t k k₁ k₂ k₃ r z other done ps qs hc hz hother hdone hs ht ihs iht =>
    have htest : Segment k.labelCount k _ (k₁.wrote 1 2 _) :=
      .test [clearLine z, exitLine r other] (by simp [clearLine, exitLine]) hc
    have hn : k.labelCount ≤ k₁.labelCount := (Compiler.extends_of_expr hc).labels
    have hn' : k₁.labelCount + 2 ≤ k₂.labelCount := ihs.labels
    have hn'' : k₂.labelCount ≤ k₃.labelCount := iht.labels
    have hmid : Segment k.labelCount k₂ _ _ := .jumpOver done ⟨_, _, hother, by omega, by omega⟩
    have hother := iht.weaken (show k.labelCount ≤ k₂.labelCount by omega)
    have hend : Segment k.labelCount k₃ _ _ := .label ⟨_, _, hdone, by omega, by omega⟩
    exact htest.append ((ihs.weaken htest.labels).append (hmid.append (hother.append hend)))
  | @whileLoop c s k k₁ k₂ k₃ r start exit ps hstart hexit hk₁ hc hs ih =>
    have hopen : Segment k.labelCount k [.line (.label start)] k₁ :=
      hk₁ ▸ .openLoop _ 2 ⟨_, _, hstart, Nat.le_refl _, by omega⟩
    have htest : Segment k.labelCount k₁ _ (k₂.wrote 0 0 _) :=
      .test [exitLine r exit] (by simp [exitLine]) hc
    have hbody := ih.weaken (Nat.le_trans hopen.labels htest.labels)
    have hn : k.labelCount + 2 ≤ k₁.labelCount := Nat.le_of_eq (by rw [hk₁]; rfl)
    have hn' : k₁.labelCount ≤ k₃.labelCount := Nat.le_trans htest.labels ih.labels
    have hend : Segment k.labelCount k₃ _ _ := .jumpOver start ⟨_, _, hexit, by omega, by omega⟩
    exact (hopen.append (htest.append (hbody.append hend))).closeLoop
  | @doWhile c s k k₁ k₂ k₃ r start test exit ps hstart htest hexit hs hk₂ hc ih =>
    have hopen : Segment k.labelCount k [.line (.label start)]
        (((k.wrote 0 3 []).openLoop ⟨test, exit⟩).wrote 0 0 _) :=
      .openLoop _ 3 ⟨_, _, hstart, Nat.le_refl _, by omega⟩
    have hn : k.labelCount + 3 ≤ k₁.labelCount := ih.labels
    have hn' : k₁.labelCount ≤ k₃.labelCount := by
      have hlabels := (Compiler.extends_of_expr hc).labels
      rwa [hk₂] at hlabels
    have hlabel : Segment k.labelCount k₁ [.line (.label test)] k₂ :=
      hk₂ ▸ .label ⟨_, _, htest, by omega, by omega⟩
    have hcond : Segment k.labelCount k₂ _ (k₃.wrote 0 0 _) :=
      .test [exitLine r exit] (by simp [exitLine]) hc
    have hend : Segment k.labelCount (k₃.wrote 0 0 [exitLine r exit]) _ _ :=
      .jumpOver start ⟨_, _, hexit, by omega, by show _ < k₃.labelCount; omega⟩
    have hall := hopen.append ((ih.weaken hopen.labels).append (hlabel.append (hcond.append hend)))
    rw [Compiler.wrote_wrote] at hall
    exact hall.closeLoop
  | @forLoop init c step s k k₁ k₂ k₃ k₄ k₅ start next exit is ts ps ss his hstart hnext hexit
      hts hs hss ih =>
    have hinit := his.segment k.labelCount
    have hmint : Segment k.labelCount k₁ [] k₂ ∧ k₁.labelCount + 1 ≤ k₂.labelCount := by
      have hone : Segment k.labelCount k₁ [] (k₁.wrote 0 1 []) := .wrote [] nofun
      rcases stepLabel_cases hnext with ⟨-, -, rfl⟩ | ⟨-, -, rfl⟩
      · exact ⟨hone, Nat.le_refl _⟩
      · exact ⟨hone.append (.wrote [] nofun), Nat.le_succ _⟩
    have hn := hinit.labels
    have hn₂ := hmint.2
    have hopen : Segment k.labelCount k₂ [.line (.label start)] _ :=
      .openLoop ⟨next, exit⟩ 1 ⟨_, _, hstart, hn, by omega⟩
    have htest := hts.segment k.labelCount
    have hn₃ : k₂.labelCount + 1 ≤ k₃.labelCount := htest.labels
    have hbody := ih.weaken (show k.labelCount ≤ k₃.labelCount by omega)
    have hn₄ : k₃.labelCount ≤ k₄.labelCount := ih.labels
    have hstep : Segment k.labelCount k₄ ss k₅ := by
      refine hss.segment fun st hst => ?_
      rcases stepLabel_cases hnext with ⟨rfl, -, -⟩ | ⟨-, rfl, hk₂⟩
      · cases hst
      · have hcount : k₂.labelCount = k₁.labelCount + 1 + 1 := by rw [hk₂]; rfl
        exact ⟨_, _, rfl, Nat.le_succ_of_le hn, by show k₁.labelCount + 1 < _; omega⟩
    have hn₅ := hstep.labels
    have hend : Segment k.labelCount k₅ _ _ := .jumpOver start ⟨_, _, hexit, by omega, by omega⟩
    exact (hinit.append
      (hmint.1.append (hopen.append (htest.append (hbody.append (hstep.append hend)))))).closeLoop

theorem LowersStart.extends {init : Option ForInit} {is : List CodePiece}
    (h : LowersStart init k is k₁) : k.Extends k₁ := by
  cases h with
  | none => exact .refl k
  | some hi => exact Compiler.extends_of_stmt hi

theorem LowersTest.extends {exit : Label} {c : Option Expr} {ts : List CodePiece}
    (h : LowersTest exit c k ts k₁) : k.Extends k₁ := by
  cases h with
  | none => exact .refl k
  | some hc => exact (Compiler.extends_of_expr hc).trans (Compiler.extends_wrote ..)

theorem LowersStep.extends {ss : List CodePiece}
    (h : LowersStep next step k ss k₁) : k.Extends k₁ := by
  cases h with
  | none => exact .refl k
  | some hst => exact (Compiler.extends_wrote ..).trans (Compiler.extends_of_stmt hst)

theorem extends_of_stepLabel {start : Label}
    (h : stepLabel start step k = (.ok next, k₁)) : k.Extends k₁ := by
  have hkept := keeps_stepLabel start step k
  rwa [h] at hkept

theorem Lowers.extends {s : Stmt} {k' : Compiler} {ps : List CodePiece} (h : Lowers s k ps k') :
    k.Extends k' := by
  have wrote := Compiler.extends_wrote
  induction h with
  | leaf _ hs => exact Compiler.extends_of_stmt hs
  | breakLoop | continueLoop => exact wrote ..
  | @nil k => exact .refl k
  | cons _ _ ihs ihss => exact ihs.trans ihss
  | ifThen hc _ _ _ ih =>
    exact (Compiler.extends_of_expr hc).trans ((wrote ..).trans (ih.trans (wrote ..)))
  | ifElse hc _ _ _ _ _ ihs iht =>
    have hbranch := (Compiler.extends_of_expr hc).trans ((wrote ..).trans ihs)
    exact hbranch.trans ((wrote ..).trans (iht.trans (wrote ..)))
  | whileLoop _ _ hk₁ hc _ ih =>
    rw [hk₁] at hc
    have htest := (wrote ..).trans (Compiler.extends_of_expr hc)
    exact (wrote ..).trans (htest.trans ((wrote ..).trans (ih.trans (wrote ..)))).inLoop
  | doWhile _ _ _ _ hk₂ hc ih =>
    rw [hk₂] at hc
    have htest := (wrote ..).trans (Compiler.extends_of_expr hc)
    exact (wrote ..).trans (((wrote ..).trans ih).trans (htest.trans (wrote ..))).inLoop
  | forLoop his _ hnext _ hts _ hss ih =>
    have hmint := his.extends.trans ((wrote ..).trans (extends_of_stepLabel hnext))
    have hbody := (wrote ..).trans (hts.extends.trans (ih.trans hss.extends))
    exact hmint.trans ((wrote ..).trans (hbody.trans (wrote ..)).inLoop)

end WordC
