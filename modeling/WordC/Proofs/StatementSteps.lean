import WordC.Proofs.LabelSteps

/-!
# Accounts of labels through statements

Declarations, assignments and statements keep every account that steps keep, however deep inside
they are refused. Loops place the labels that they make, data has its labels placed beside the code,
and an array or a global is noted when its label is known.
-/

namespace WordC

open Asm Compile Step

/-! ### The parts of a `for` -/

namespace Compile

def forStart : Option ForInit → Compile Unit
  | some i => forInit i
  | none => pure ()

/-- Where a `continue` goes: to the step, which has a label of its own, or else to the start. -/
def stepLabel (start : Label) : Option ForStep → Compile Label
  | some _ => mint .forIncrement
  | none => pure start

def forTest (exit : Label) : Option Expr → Compile Unit
  | some c => do
    let r ← c.compile
    let z ← temp
    emit (.mov z (.imm 0))
    jumpIfZero r exit
  | none => pure ()

def forNext (next : Label) : Option ForStep → Compile Unit
  | some st => do
    place next
    forStep st
  | none => pure ()

/-- The label that the step of a `for` has yet to place. -/
def stepDue (next : Label) : Option ForStep → List Label
  | some _ => [next]
  | none => []

end Compile

theorem Stmt.compile_forLoop (init : Option ForInit) (c : Option Expr) (step : Option ForStep)
    (s : Stmt) : (forLoop init c step s).compile = (do
      forStart init
      let start ← mint .forStart
      let next ← stepLabel start step
      let exit ← mint .forEnd
      inLoop ⟨next, exit⟩ do
        place start
        forTest exit c
        compile s
        forNext next step
        jump start
        place exit) := by
  cases init <;> cases c <;> cases step <;> rw [compile] <;>
    simp [forStart, stepLabel, forTest, forNext]

namespace Compile

/-- The end of a body that has no `return` in it. -/
def finish : Compile Unit := do
  if !(← get).returned then
    line (.comment "Implicit return 0")
    emit (.mov result (.imm 0))
    leave

/-! ### Declarations and assignments -/

variable {β : Type} {I : Account} [StepRules I] {known due left : List Label}

theorem books_initTo (d : Reg) (e : Expr) : Books I known due due (initTo d e) :=
  e.books_compile.bind fun r => books_move d r

theorem dataWord_eq_word (e : Expr) : ∃ n, dataWord e = .word n := by
  cases e with
  | literal n => exact ⟨n, rfl⟩
  | _ => exact ⟨0, rfl⟩

theorem books_word (n : Nat) : Books I known due due (dataLine (.word n)) :=
  books_beside [.word n] rfl fun _ => ⟨rfl, rfl, Array.toList_push, List.forall_mem_singleton.mpr
    rfl, List.forall_mem_nil _, Nat.le_refl _, rfl, rfl, id, fun _ hl => .inl hl⟩

theorem books_dataWord (e : Expr) : Books I known due due (dataLine (dataWord e)) := by
  obtain ⟨n, hn⟩ := dataWord_eq_word e
  rw [hn]
  exact books_word n

theorem books_zeros (n : Nat) : Books I known due due (zeros n) := by
  have hplaced : placed (List.replicate n (Line.word 0)) = [] := by simp [placed, Line.label?]
  refine books_beside _ hplaced fun c =>
    ⟨rfl, rfl, ?_, ?_, ?_, Nat.le_refl _, rfl, rfl, id, fun _ hl => .inl hl⟩
  · show (c.data ++ Array.replicate n (Line.word 0)).toList = _
    simp
  · exact fun line hline => List.eq_of_mem_replicate hline ▸ rfl
  · rw [hplaced]
    exact List.forall_mem_nil _

/-- The label of a global stands in the table of globals before it is placed; behind both steps it
is known. -/
theorem books_globalLabel {x : String} {l : Label} {y : Compile β} (hl : l.isData = true)
    (hn : l.number? = none) (hy : Books I (l :: known) due left y) : Books I known due left (do
      modify fun c => { c with globals := c.globals.set x l }
      dataLine (.label l)
      y) := by
  intro c hc
  have hbeside : c.Beside known [.label l] { c with
        globals := c.globals.set x l, data := c.data.push (.label l) } := by
    refine ⟨rfl, Array.toList_push, List.forall_mem_singleton.mpr hl, ?_, Nat.le_refl _, rfl, rfl,
      id, fun m hm => ?_⟩
    · exact List.forall_mem_singleton.mpr (Label.numberedIn_of_none hn)
    · rcases Compiler.Notes.of_globals (c := c) hm with hm | rfl
      · exact .inl hm
      · exact .inr (.inr List.mem_cons_self)
  refine .step rfl rfl (.step rfl rfl ?_)
  exact (hy _ (StepRules.change hc hbeside)).forget fun _ => List.mem_cons_of_mem _

/-- A table that notes a known label, or a change of what no label depends on. -/
theorem books_note {f : Compiler → Compiler}
    (hf : ∀ c, (f c).loops = c.loops ∧ (f c).code = c.code ∧ (f c).data = c.data ∧
      (f c).labelCount = c.labelCount ∧ (f c).current = c.current ∧ (f c).functions = c.functions ∧
      (f c).pool.nextTemp = c.pool.nextTemp ∧ ∀ l, (f c).Notes l → c.Notes l ∨ l ∈ known) :
    Books I known due due (modify f : Compile Unit) := by
  refine books_modify fun c => ?_
  obtain ⟨hloops, hcode, hdata, hcount, hcurrent, hfunctions, hturning, hnotes⟩ := hf c
  exact ⟨hloops, .quiet hcode hdata (Nat.le_of_eq hcount.symm) hcurrent hfunctions
    (fun h => hturning ▸ h) hnotes⟩

theorem books_noteArray {f : Compiler → Compiler} {a : String} {l : Label} (hl : l ∈ known)
    (hf : ∀ c, (f c).loops = c.loops ∧ (f c).code = c.code ∧ (f c).data = c.data ∧
      (f c).labelCount = c.labelCount ∧
      (f c).current = c.current ∧ (f c).functions = c.functions ∧
      (f c).pool.nextTemp = c.pool.nextTemp ∧
      ∀ m, (f c).Notes m → { c with arrays := c.arrays.set a (.label l) }.Notes m) :
    Books I known due due (modify f : Compile Unit) := by
  refine books_note fun c => ?_
  obtain ⟨hloops, hcode, hdata, hcount, hcurrent, hfunctions, hturning, hnotes⟩ := hf c
  refine ⟨hloops, hcode, hdata, hcount, hcurrent, hfunctions, hturning, fun m hm => ?_⟩
  rcases Compiler.Notes.of_arrays (c := c) (hnotes m hm) with hm | hm
  · exact .inl hm
  · cases hm
    exact .inr hl

theorem books_globalVar (d : VarDecl) : Books I known due due (globalVar d) := by
  refine books_globalLabel rfl rfl
    (Books.andThen ?_ (books_note fun c => ⟨rfl, rfl, rfl, rfl, rfl, rfl, rfl, fun m hm => ?_⟩))
  · cases d.init with
    | none => exact books_word 0
    | some e => exact books_dataWord e
  · rcases Compiler.Notes.of_varPlaces (c := c) hm with hm | hm
    · exact .inl hm
    · cases hm
      exact .inr List.mem_cons_self

theorem books_localVar (d : VarDecl) : Books I known due due (localVar d) := by
  refine (books_allocate _).bind fun r =>
    Books.andThen (books_note fun c => ⟨rfl, rfl, rfl, rfl, rfl, rfl, rfl, fun m hm => ?_⟩) ?_
  · rcases Compiler.Notes.of_varPlaces (c := c) hm with hm | hm
    · exact .inl hm
    · cases hm
  · split
    · exact books_initTo r _
    · exact books_emit rfl

theorem books_registerVar (d : VarDecl) (r : Fin 32) : Books I known due due (registerVar d r) := by
  refine books_ite (books_failing fun _ => ⟨_, rfl⟩) (Books.andThen (books_note fun c => ?_) ?_)
  · exact ⟨rfl, rfl, rfl, rfl, rfl, rfl, rfl, fun _ hm => .inl hm⟩
  · split
    · exact books_initTo _ _
    · exact books_pure _

theorem books_varDecl (d : VarDecl) : Books I known due due (varDecl d) := by
  unfold varDecl
  split
  · exact books_registerVar d _
  · exact books_currentFunction.bind fun _ => books_ite (books_globalVar d) (books_localVar d)

theorem books_values (es : List Expr) :
    Books I known due due (es.forM fun e => dataLine (dataWord e)) := by
  induction es with
  | nil => exact books_pure _
  | cons e es ih => exact (books_dataWord e).andThen ih

theorem books_localValues {l : Label} (hl : l ∈ known) (es : List Expr) :
    ∀ i, Books I known due due (localValues l i es) := by
  induction es with
  | nil => exact fun _ => books_pure ()
  | cons e es ih =>
    intro i
    rw [localValues]
    refine (books_dataWord e).andThen ?_
    split
    · exact ih (i + 1)
    · refine e.books_compile.bind fun v => books_drawing fun a _ =>
        books_addressing rfl hl (books_drawing fun n _ => ?_)
      exact books_writing rfl (books_writing rfl (books_writing rfl (ih (i + 1))))

theorem books_globalArray (d : ArrayDecl) (size : Nat) :
    Books I known due due (globalArray d size) := by
  refine books_globalLabel rfl rfl ((books_values _).andThen ((books_zeros _).andThen ?_))
  exact books_noteArray List.mem_cons_self fun c =>
    ⟨rfl, rfl, rfl, rfl, rfl, rfl, rfl, fun _ hm => hm⟩

/-- The label of an array inside a function has a number of its own. -/
theorem books_localArray (d : ArrayDecl) (size : Nat) (f : String) :
    Books I known due due (localArray d size f) := by
  intro c hc
  have hbeside : c.Beside known [.label (.localArray f d.name c.labelCount)] { c with
      labelCount := c.labelCount + 1, data :=
      c.data.push (.label (.localArray f d.name c.labelCount)) } := by
    refine ⟨rfl, Array.toList_push, List.forall_mem_singleton.mpr rfl, ?_, Nat.le_succ _, rfl, rfl,
      id, fun _ hl => .inl hl⟩
    exact List.forall_mem_singleton.mpr
      (Label.numberedIn_of_number? rfl (Nat.le_refl _) (Nat.lt_succ_self _))
  have hrest : Books I (.localArray f d.name c.labelCount :: known) due due (do
      localValues (.localArray f d.name c.labelCount) 0 (d.init.getD [])
      zeros (size - (d.init.getD []).length)
      modify fun k => { k with
        arrays := k.arrays.set d.name (.label (.localArray f d.name c.labelCount))
        sizes := k.sizes.set d.name size }) := by
    refine (books_localValues List.mem_cons_self _ 0).andThen ((books_zeros _).andThen ?_)
    exact books_noteArray List.mem_cons_self fun c =>
      ⟨rfl, rfl, rfl, rfl, rfl, rfl, rfl, fun _ hm => hm⟩
  exact .step rfl rfl
    (.step rfl rfl ((hrest _ (StepRules.change hc hbeside)).forget fun _ => List.mem_cons_of_mem _))

theorem books_arrayDecl (d : ArrayDecl) : Books I known due due (arrayDecl d) := by
  unfold arrayDecl
  split
  · refine books_ite (books_failing fun _ => ⟨_, rfl⟩) (books_currentFunction.bind fun f => ?_)
    cases f with
    | none => exact books_globalArray d _
    | some f => exact books_localArray d _ f
  · exact books_throw _

theorem books_pointerDecl (d : PointerDecl) : Books I known due due (pointerDecl d) := by
  refine (books_allocate _).bind fun r => ?_
  split
  · exact books_initTo r _
  · exact books_emit rfl

theorem books_decl (d : Decl) : Books I known due due (decl d) := by
  cases d with
  | var d => exact books_varDecl d
  | array d => exact books_arrayDecl d
  | pointer d => exact books_pointerDecl d

theorem books_assign (x : String) (e : Expr) : Books I known due due (assign x e) := by
  refine e.books_compile.bind fun v => books_look fun c hc => ?_
  split
  · next l hl =>
    refine books_noted hc (.global hl) (books_drawingApart _ fun _ _ => ?_)
    exact books_addressing rfl List.mem_cons_self (books_emit rfl)
  · refine (books_registerOf? x).bind (fun r => ?_) c hc
    split
    · exact books_move _ v
    · exact (books_allocate x).bind fun r => books_move r v

theorem books_assignIndex (a : String) (i e : Expr) :
    Books I known due due (assignIndex a i e) := by
  refine i.books_compile.bind fun i => e.books_compile.bind fun v => books_look fun c hc => ?_
  split
  · next p hp =>
    cases p with
    | label l =>
      refine books_noted hc (.array hp) (books_drawing fun t _ => ?_)
      exact (books_elementAddress t i List.mem_cons_self).andThen (books_emit rfl)
    | number n => exact books_drawing (fun t _ => books_failing fun _ => ⟨_, rfl⟩) c hc
  · exact books_throw _ c hc

theorem books_assignDeref (p e : Expr) : Books I known due due (assignDeref p e) :=
  p.books_compile.bind fun _ => e.books_compile.bind fun _ => books_emit rfl

theorem books_bump (op : AluOp) (x : String) : Books I known due due (bump op x) := by
  refine (books_registerOf? x).bind fun r => ?_
  split
  · exact books_drawing fun _ _ => books_writing rfl (books_emit rfl)
  · exact books_throw _

/-! ### Calls, returns and raw assembly -/

theorem books_callStatement (e : Expr) : Books I known due due (callStatement e) := by
  unfold callStatement
  split
  · have hcall (f : String) (args : List Expr) :
        Books I known due due (do let _ ← (Expr.call f args).compile : Compile Unit) :=
      (Expr.books_compile _).andThen (books_pure _)
    refine books_get fun k => books_ite (hcall _ _) ?_
    refine (Expr.books_compileAll fun e _ => e.books_compile).bind fun regs =>
      books_ite ?_ (hcall _ _)
    split
    · exact books_emit rfl
    · exact books_throw _
  · exact books_throw _

theorem books_leave : Books I known due due leave := by
  refine books_currentFunction.bind fun f => books_ite (books_emit rfl) ?_
  exact books_writing rfl (books_writing rfl (books_emit rfl))

theorem books_ret (value : Option Expr) : Books I known due due (ret value) := by
  refine Books.andThen
    (books_note fun c => ⟨rfl, rfl, rfl, rfl, rfl, rfl, rfl, fun _ hm => .inl hm⟩) ?_
  split
  · exact (Expr.books_compile _).bind fun r => (books_move _ r).andThen books_leave
  · exact books_writing rfl books_leave

theorem books_asm (text : String) : Books I known due due (asm text) := by
  unfold asm
  generalize Text.lines text.toList = ls
  induction ls with
  | nil => exact books_pure _
  | cons cs ls ih =>
    refine Books.andThen ?_ ih
    dsimp only
    split
    · exact books_line rfl (List.forall_mem_nil _)
    · exact books_line rfl (List.forall_mem_nil _)

/-! ### Loop heads -/

theorem books_forStep (s : ForStep) : Books I known due due (forStep s) := by
  cases s with
  | increment x _ => exact books_bump .add x
  | decrement x _ => exact books_bump .sub x
  | assign x e => exact books_assign x e

theorem books_forStart (init : Option ForInit) : Books I known due due (forStart init) := by
  cases init with
  | none => exact books_pure _
  | some i =>
    cases i with
    | declare d => exact books_varDecl d
    | assign x e => exact books_assign x e

theorem books_exitUnless (c : Expr) {exit : Label} (hexit : exit ∈ known) :
    Books I known due due (exitUnless c exit) :=
  c.books_compile.bind fun _ => books_taking rfl hexit

theorem books_forTest {exit : Label} (c : Option Expr) (hexit : exit ∈ known) :
    Books I known due due (forTest exit c) := by
  cases c with
  | none => exact books_pure ()
  | some c =>
    exact c.books_compile.bind fun r => books_drawing fun z _ =>
      books_writing rfl (books_taking rfl hexit)

/-- Without a step the label of the start is used again, which is not to be placed twice. -/
theorem books_stepLabel {start : Label} (step : Option ForStep)
    (hstart : start ∈ known) {f : Label → Compile β}
    (hf : ∀ next, Books I (next :: known) (stepDue next step ++ due) left (f next)) :
    Books I known due left (stepLabel start step >>= f) := by
  cases step with
  | none =>
    intro c hc
    have hknown : I (start :: known) due c :=
      StepRules.forget hc (List.cons_subset.mpr ⟨hstart, List.Subset.refl _⟩)
    exact .step rfl rfl ((hf start c hknown).forget fun _ => List.mem_cons_of_mem _)
  | some st => exact books_minting (by decide) hf

theorem books_forNext {exit next : Label} (step : Option ForStep) :
    Books I known ([exit] ++ (stepDue next step ++ due)) ([exit] ++ due) (forNext next step) := by
  cases step with
  | none => exact books_pure ()
  | some st => exact books_placing [exit] due (books_forStep st)

end Compile

/-! ### Statements -/

namespace Stmt

variable {I : Account} [StepRules I] {known due : List Label}

omit [StepRules I] in
theorem books_compileAll {ss : List Stmt} (h : ∀ s ∈ ss, Books I known due due s.compile) :
    Books I known due due (compileAll ss) := by
  induction ss with
  | nil =>
    rw [compileAll]
    exact books_pure _
  | cons s ss ih =>
    obtain ⟨hs, hss⟩ := List.forall_mem_cons.mp h
    rw [compileAll]
    exact hs.andThen (ih hss)

theorem books_compile (s : Stmt) : Books I known due due s.compile := by
  induction s generalizing known due with
  | decl d =>
    rw [compile]
    exact books_decl d
  | assign x e =>
    rw [compile]
    exact books_assign x e
  | assignIndex a i e =>
    rw [compile]
    exact books_assignIndex a i e
  | assignDeref p e =>
    rw [compile]
    exact books_assignDeref p e
  | ret value =>
    rw [compile]
    exact books_ret value
  | ifThen c s ih =>
    rw [compile]
    -- the first label is never used, so it is not to be placed
    refine c.books_compile.bind fun r =>
      (books_mint _).andThen (books_minting (by decide) fun done => ?_)
    refine books_drawing fun z _ =>
      books_writing rfl (books_addressing rfl (l := done) (by simp) ?_)
    exact ih.andThen (books_place done)
  | ifElse c s t ihs iht =>
    rw [compile]
    refine c.books_compile.bind fun r => books_minting (by decide) fun other =>
      books_minting (by decide) fun done => ?_
    refine books_drawing fun z _ =>
      books_writing rfl (books_addressing rfl (l := other) (by simp) (ihs.andThen ?_))
    refine books_addressing rfl (l := done) (by simp) (books_placing [done] due (iht.andThen ?_))
    exact books_place done
  | whileLoop c s ih =>
    rw [compile]
    refine books_minting (by decide) fun start => books_minting (by decide) fun exit =>
      books_inLoop (by simp) (by simp) ?_
    refine books_placing [exit] due ((books_exitUnless c (by simp)).andThen (ih.andThen ?_))
    exact books_addressing rfl (l := start) (by simp) (books_place exit)
  | doWhile s c ih =>
    rw [compile]
    refine books_minting (by decide) fun start => books_minting (by decide) fun test =>
      books_minting (by decide) fun exit => ?_
    refine books_inLoop (by simp) (by simp) (books_placing [exit, test] due (ih.andThen ?_))
    refine books_placing [exit] due ((books_exitUnless c (by simp)).andThen ?_)
    exact books_addressing rfl (l := start) (by simp) (books_place exit)
  | forLoop init c step s ih =>
    rw [compile_forLoop]
    refine (books_forStart init).andThen
      (books_minting (by decide) fun start => books_stepLabel step (by simp) fun next => ?_)
    refine books_minting (by decide) fun exit => books_inLoop (by simp) (by simp) ?_
    refine books_placing (exit :: stepDue next step) due
      ((books_forTest c (by simp)).andThen (ih.andThen ?_))
    exact (books_forNext step).andThen
      (books_addressing rfl (l := start) (by simp) (books_place exit))
  | block ss ih =>
    rw [compile]
    exact books_compileAll fun s hs => ih s hs
  | call e =>
    rw [compile]
    exact books_callStatement e
  | increment x _ =>
    rw [compile]
    exact books_bump .add x
  | decrement x _ =>
    rw [compile]
    exact books_bump .sub x
  | breakLoop =>
    rw [compile]
    refine books_look fun c hc => ?_
    split
    · next loop _ hloops =>
      have hloop : loop ∈ c.loops := hloops ▸ List.mem_cons_self
      exact books_noted hc (.exit hloop) (books_taking rfl List.mem_cons_self)
    · exact books_throw _ c hc
  | continueLoop =>
    rw [compile]
    refine books_look fun c hc => ?_
    split
    · next loop _ hloops =>
      have hloop : loop ∈ c.loops := hloops ▸ List.mem_cons_self
      exact books_noted hc (.next hloop) (books_taking rfl List.mem_cons_self)
    · exact books_throw _ c hc
  | asm text =>
    rw [compile]
    exact books_asm text
  | hole =>
    rw [compile]
    exact books_error fun _ => ⟨_, rfl⟩

end Stmt

/-! ### Parts of functions and programs -/

namespace Compile

variable {I : Account} [StepRules I] {known due : List Label}

theorem books_loadParams (xs : List String) : ∀ i, Books I known due due (loadParams i xs) := by
  induction xs with
  | nil => exact fun _ => books_pure _
  | cons x xs ih =>
    intro i
    rw [loadParams]
    refine (books_allocate x).bind fun r => books_drawing fun a _ =>
      books_writing rfl (books_drawing fun n _ => ?_)
    exact books_writing rfl (books_writing rfl (books_writing rfl (ih (i + 1))))

theorem books_finish : Books I known due due finish := by
  refine books_get fun k => books_ite ?_ (books_pure _)
  exact (books_line rfl (List.forall_mem_nil _)).andThen (books_writing rfl books_leave)

theorem books_globalAll (ds : List Decl) : Books I known due due (globalAll ds) := by
  induction ds with
  | nil => exact books_pure _
  | cons d ds ih => exact (books_decl d).andThen ih

end Compile

end WordC
