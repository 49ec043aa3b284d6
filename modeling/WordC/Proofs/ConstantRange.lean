import WordC.Proofs.FunctionEnds
import WordC.Proofs.MovedConstants

/-!
# Numbers and the field they are cut to

The instruction set has twenty bits for a number that is moved, and cuts away what does not fit. The
compiler checks none of the numbers that it moves; it only reads literals modulo `2 ^ 32`. So a
listing keeps to the field if and only if the numbers in the text do: the literals of code, the
numbers of arguments and parameters, the places of elements that are computed, and the slots of
variables whose address is taken. Sizes of arrays and the constant initial values of globals and
arrays are words of the data section and never cut.
-/

namespace WordC

open Asm Compile Step

/-! ### Frames along statements -/

namespace Frame

/-- The frame behind the declaration of a variable without a register of its own choice: it takes
the next slot, or gets a label if it is global. -/
def declare (F : Frame) (x : String) : Frame :=
  match F.current with
  | some _ => { F with places := F.places.set x (.slot F.slots), slots := F.slots + 1 }
  | none => { F with places := F.places.set x (.label (.globalVar x)) }

theorem declare_local {F : Frame} {f : String} (hF : F.current = some f) (x : String) :
    F.declare x = { F with places := F.places.set x (.slot F.slots), slots := F.slots + 1 } := by
  unfold declare
  split
  · rfl
  · next hnone =>
    rw [hF] at hnone
    cases hnone

theorem declare_global {F : Frame} (hF : F.current = none) (x : String) :
    F.declare x = { F with places := F.places.set x (.label (.globalVar x)) } := by
  unfold declare
  split
  · next hsome =>
    rw [hF] at hsome
    cases hsome
  · rfl

def enter (F : Frame) (f : Func) : Frame :=
  { F with current := some f.name, slots := if f.name = "main" then 0 else 1 + f.params.length }

/-- The frame behind a function. The places of its variables stay. -/
def leave (F outer : Frame) : Frame := { F with current := outer.current, slots := outer.slots }

end Frame

namespace VarDecl

def after (F : Frame) (d : VarDecl) : Frame := if d.register.isSome then F else F.declare d.name

/-- The initial value of a global is no code; in a function it may already speak of the variable. -/
def constants (F : Frame) (d : VarDecl) : List Int :=
  if d.register.isNone ∧ F.current.isNone then [] else Expr.constantsOf (d.after F) d.init

end VarDecl

/-- The numbers of initial values in a function, from place `i` on. Literals are words of the data
section. -/
def Expr.elementConstants (F : Frame) : (i : Nat) → List Expr → List Int
  | _, [] => []
  | i, .literal _ :: es => elementConstants F (i + 1) es
  | i, e :: es => e.constants F ++ (i : Int) :: elementConstants F (i + 1) es

namespace Decl

def after (F : Frame) : Decl → Frame
  | var d => d.after F
  | array _ => F
  | pointer _ => F

def constants (F : Frame) : Decl → List Int
  | var d => d.constants F
  | array d => if F.current.isNone then [] else Expr.elementConstants F 0 (d.init.getD [])
  | pointer d => Expr.constantsOf F d.init

end Decl

namespace ForInit

def after (F : Frame) : ForInit → Frame
  | declare d => d.after F
  | assign _ _ => F

def constants (F : Frame) : ForInit → List Int
  | declare d => d.constants F
  | assign _ e => e.constants F

end ForInit

def ForStep.constants (F : Frame) : ForStep → List Int
  | increment _ _ => []
  | decrement _ _ => []
  | assign _ e => e.constants F

namespace Stmt

/-- The frame behind the head of a `for`. -/
def afterInit (F : Frame) (init : Option ForInit) : Frame := (init.map (ForInit.after F)).getD F

mutual

/-- The frame behind a statement: what is declared inside of it stays. -/
def after (F : Frame) : Stmt → Frame
  | decl d => d.after F
  | ifThen _ s => after F s
  | ifElse _ s t => after (after F s) t
  | whileLoop _ s => after F s
  | doWhile s _ => after F s
  | forLoop init _ _ s => after (afterInit F init) s
  | block ss => afterAll F ss
  | _ => F

def afterAll (F : Frame) : List Stmt → Frame
  | [] => F
  | s :: ss => afterAll (after F s) ss

end

mutual

/-- The numbers that the code of a statement moves. -/
def constants (F : Frame) : Stmt → List Int
  | decl d => d.constants F
  | assign _ e => e.constants F
  | assignIndex _ i e => i.constants F ++ e.constants F
  | assignDeref p e => p.constants F ++ e.constants F
  | ret e => Expr.constantsOf F e
  | ifThen c s => c.constants F ++ constants F s
  | ifElse c s t => c.constants F ++ (constants F s ++ constants (after F s) t)
  | whileLoop c s => c.constants F ++ constants F s
  | doWhile s c => constants F s ++ c.constants (after F s)
  | forLoop init c step s =>
    (init.map (ForInit.constants F)).getD [] ++ (Expr.constantsOf (afterInit F init) c ++
      (constants (afterInit F init) s ++
        (step.map (ForStep.constants (after (afterInit F init) s))).getD []))
  | block ss => constantsAll F ss
  | call e => e.constants F
  | _ => []

def constantsAll (F : Frame) : List Stmt → List Int
  | [] => []
  | s :: ss => constants F s ++ constantsAll (after F s) ss

end

end Stmt

namespace Func

def after (F : Frame) (f : Func) : Frame := (Stmt.afterAll (F.enter f) f.body).leave F

/-- The numbers that the code of a function moves: the places of its parameters and the numbers of
its body. -/
def constants (F : Frame) (f : Func) : List Int :=
  (List.range' 1 f.params.length).map (fun n : Nat => (n : Int)) ++
    Stmt.constantsAll (F.enter f) f.body

end Func

namespace Program

/-- The frame in front of all code: only the functions are known. -/
def frame (p : Program) : Frame := { functions := (p.link {}).functions }

def constantsOfGlobals (F : Frame) : List Decl → List Int
  | [] => []
  | d :: ds => d.constants F ++ constantsOfGlobals (d.after F) ds

def afterGlobals (F : Frame) (ds : List Decl) : Frame := ds.foldl (fun F d => d.after F) F

def constantsOfFunctions (F : Frame) : List Func → List Int
  | [] => []
  | f :: fs => f.constants F ++ constantsOfFunctions (f.after F) fs

def afterFunctions (F : Frame) (fs : List Func) : Frame := fs.foldl (fun F f => f.after F) F

theorem constantsOfFunctions_append (fs gs : List Func) :
    ∀ F : Frame, constantsOfFunctions F (fs ++ gs) =
    constantsOfFunctions F fs ++ constantsOfFunctions (afterFunctions F fs) gs := by
  induction fs with
  | nil => exact fun _ => rfl
  | cons f fs ih =>
    intro F
    rw [List.cons_append, constantsOfFunctions, constantsOfFunctions, ih, List.append_assoc]
    rfl

/-- The numbers that the code of a program moves. -/
def constants (p : Program) : List Int :=
  constantsOfGlobals p.frame p.globals ++
    constantsOfFunctions (afterGlobals p.frame p.globals) p.compiled

end Program

/-! ### Declarations and assignments -/

namespace Compile

variable {F : Frame}

theorem carries_initTo (d : Reg) (e : Expr) : (initTo d e).Carries F F (e.constants F) :=
  carries_last e.carries_compile fun r => carries_move d r

theorem carries_dataLine {l : Line} (h : l.constant? = none) : (dataLine l).Carries F F [] := by
  refine carries_modify fun c hc => ⟨hc, rfl, ?_⟩
  rw [Array.toList_push, constants_append]
  simp [constants, h]

theorem constant?_dataWord (e : Expr) : (dataWord e).constant? = none := by
  unfold dataWord
  split <;> rfl

theorem carries_zeros (n : Nat) : (zeros n).Carries F F [] := by
  refine carries_modify fun c hc => ⟨hc, rfl, ?_⟩
  have hzeros : constants (List.replicate n (.word 0)) = [] :=
    List.filterMap_eq_nil_iff.mpr fun l hl => List.eq_of_mem_replicate hl ▸ rfl
  rw [Array.toList_append, Array.toList_replicate, constants_append, hzeros, List.append_nil]

theorem carries_globalVar (d : VarDecl) (hF : F.current = none) :
    (globalVar d).Carries F (F.declare d.name) [] := by
  have hword : ((d.init.map dataWord).getD (.word 0)).constant? = none := by
    cases d.init with
    | none => rfl
    | some e => exact constant?_dataWord e
  refine carries_next (carries_modify fun c hc => ⟨hc, rfl, rfl⟩) fun _ =>
    carries_next (carries_dataLine rfl) fun _ => ?_
  refine carries_next (carries_dataLine hword) fun _ => carries_modify fun c hc => ⟨?_, rfl, rfl⟩
  subst hc
  rw [Frame.declare_global hF]
  rfl

theorem carries_localVar (d : VarDecl) {f : String} (hF : F.current = some f) :
    (localVar d).Carries F (F.declare d.name) (Expr.constantsOf (F.declare d.name) d.init) := by
  refine carries_next (carries_allocate _) fun r => ?_
  have hdeclare : (modify fun c : Compiler => { c with
      varPlaces := c.varPlaces.set d.name (.slot c.stackOffset)
      stackOffset := c.stackOffset + 1 } : Compile Unit).Carries F (F.declare d.name) [] := by
    refine carries_modify fun c hc => ⟨?_, rfl, rfl⟩
    subst hc
    rw [Frame.declare_local hF]
    rfl
  refine carries_next hdeclare fun _ => ?_
  cases d.init with
  | some e => exact carries_initTo r e
  | none => exact carries_emit rfl

theorem carries_registerVar (d : VarDecl) (r : Fin 32) :
    (registerVar d r).Carries F F (Expr.constantsOf F d.init) := by
  refine carries_ite (carries_failing _) ?_
  refine carries_next (carries_modify fun c hc => ⟨hc, rfl, rfl⟩) fun _ => ?_
  cases d.init with
  | some e => exact carries_initTo r e
  | none => exact carries_pure ()

theorem carries_varDecl (d : VarDecl) : (varDecl d).Carries F (d.after F) (d.constants F) := by
  unfold varDecl VarDecl.constants VarDecl.after
  cases d.register with
  | some r => exact carries_registerVar d r
  | none =>
    refine carries_current ?_
    cases hF : F.current with
    | none => exact carries_globalVar d hF
    | some f => exact carries_localVar d hF

theorem carries_localValues (l : Label) (es : List Expr) :
    ∀ i, (localValues l i es).Carries F F (Expr.elementConstants F i es) := by
  induction es with
  | nil => exact fun _ => carries_pure ()
  | cons e es ih =>
    intro i
    rw [localValues]
    refine carries_next (carries_dataLine (constant?_dataWord e)) fun _ => ?_
    have hstored (hne : ∀ n, e ≠ .literal n) : Carries F F (Expr.elementConstants F i (e :: es)) (do
        let v ← e.compile
        let a ← temp
        emit (.mov a (.addr l))
        let n ← temp
        emit (.mov n (.imm i))
        emit (.alu .add a a (.reg n))
        emit (.store a v)
        localValues l (i + 1) es) := by
      rw [Expr.elementConstants]
      · refine carries_bind e.carries_compile fun v => carries_drawing fun a =>
          carries_writing rfl (carries_drawing fun n => ?_)
        exact carries_bind (carries_constant n i) fun _ =>
          carries_writing rfl (carries_writing rfl (ih (i + 1)))
      · exact hne
    split
    · rw [Expr.elementConstants]
      exact ih (i + 1)
    · next hne => exact hstored hne

theorem carries_globalArray (d : ArrayDecl) (size : Nat) : (globalArray d size).Carries F F [] := by
  have hvalues (es : List Expr) : Carries F F [] (es.forM fun e => dataLine (dataWord e)) := by
    induction es with
    | nil => exact carries_pure ()
    | cons e es ih => exact carries_next (carries_dataLine (constant?_dataWord e)) fun _ => ih
  refine carries_next (carries_modify fun c hc => ⟨hc, rfl, rfl⟩) fun _ =>
    carries_next (carries_dataLine rfl) fun _ => ?_
  refine carries_next (hvalues _) fun _ => carries_next (carries_zeros _) fun _ => ?_
  exact carries_modify fun c hc => ⟨hc, rfl, rfl⟩

theorem carries_localArray (d : ArrayDecl) (size : Nat) (f : String) :
    (localArray d size f).Carries F F (Expr.elementConstants F 0 (d.init.getD [])) := by
  refine carries_next carries_labelNumber fun n => carries_next (carries_dataLine rfl) fun _ =>
    carries_last (carries_localValues _ _ 0) fun _ => ?_
  exact carries_next (carries_zeros _) fun _ => carries_modify fun c hc => ⟨hc, rfl, rfl⟩

theorem carries_arrayDecl (d : ArrayDecl) : (arrayDecl d).Carries F F
    (if F.current.isNone then [] else Expr.elementConstants F 0 (d.init.getD [])) := by
  unfold arrayDecl
  generalize hM : (if F.current.isNone then [] else Expr.elementConstants F 0 (d.init.getD [])) = M
  split
  · next size _ =>
    subst hM
    refine carries_ite (carries_failing _) (carries_current ?_)
    cases F.current with
    | none => exact carries_globalArray d size
    | some f => exact carries_localArray d size f
  · exact carries_throw _

theorem carries_pointerDecl (d : PointerDecl) :
    (pointerDecl d).Carries F F (Expr.constantsOf F d.init) := by
  refine carries_next (carries_allocate _) fun r => ?_
  cases d.init with
  | some e => exact carries_initTo r e
  | none => exact carries_emit rfl

theorem carries_decl (d : Decl) : (decl d).Carries F (d.after F) (d.constants F) := by
  cases d with
  | var d => exact carries_varDecl d
  | array d => exact carries_arrayDecl d
  | pointer d => exact carries_pointerDecl d

theorem carries_assign (x : String) (e : Expr) : (assign x e).Carries F F (e.constants F) := by
  refine carries_last e.carries_compile fun v => carries_get fun c _ => ?_
  split
  · exact carries_drawingApart _ fun a => carries_writing rfl (carries_emit rfl)
  · refine carries_next (carries_registerOf? x) fun r => ?_
    split
    · exact carries_move _ v
    · exact carries_next (carries_allocate x) fun r => carries_move r v

theorem carries_assignIndex (a : String) (i e : Expr) :
    (assignIndex a i e).Carries F F (i.constants F ++ e.constants F) := by
  refine carries_bind i.carries_compile fun i => carries_last e.carries_compile fun v =>
    carries_get fun c _ => ?_
  split
  · refine carries_drawing fun t => carries_next (carries_arrayLabel a _) fun l => ?_
    exact carries_next (carries_elementAddress t l i) fun _ => carries_emit rfl
  · exact carries_throw _

theorem carries_assignDeref (p e : Expr) :
    (assignDeref p e).Carries F F (p.constants F ++ e.constants F) :=
  carries_bind p.carries_compile fun _ => carries_last e.carries_compile fun _ => carries_emit rfl

theorem carries_bump (op : AluOp) (x : String) : (bump op x).Carries F F [] := by
  refine carries_next (carries_registerOf? x) fun r => ?_
  split
  · exact carries_drawing fun one => carries_writing rfl (carries_emit rfl)
  · exact carries_throw _

/-! ### Calls, returns and raw assembly -/

/-- Arguments that are compiled a second time bring no other numbers. -/
theorem carries_callStatement (e : Expr) : (callStatement e).Carries F F (e.constants F) := by
  unfold callStatement
  split
  · next f args =>
    have hcall : Carries F F ((Expr.call f args).constants F)
        (do let _ ← (Expr.call f args).compile : Compile Unit) :=
      carries_last (Expr.call f args).carries_compile fun _ => carries_pure ()
    have hargs : (Expr.compileAll args).Carries F F (Expr.constantsAll F args) :=
      Expr.carries_compileAll fun e _ => e.carries_compile
    refine carries_get fun c hc => ?_
    have hfunctions : c.functions = F.functions := congrArg Frame.functions hc
    rw [hfunctions]
    by_cases hf : F.functions.contains f = true
    · rw [if_pos hf]
      exact hcall
    · have hconstants : (Expr.call f args).constants F = Expr.constantsAll F args := by
        simp [Expr.constants, Frame.countOf, hf]
      rw [hconstants] at hcall ⊢
      rw [if_neg hf]
      by_cases hwrite : f = "uart_write"
      · refine carries_last hargs fun regs => ?_
        rw [if_pos hwrite]
        split
        · exact carries_emit rfl
        · exact carries_throw _
      · refine carries_again hargs fun regs => ?_
        rw [if_neg hwrite]
        exact hcall
  · exact carries_throw _

theorem carries_leave : leave.Carries F F [] :=
  carries_current
    (carries_ite (carries_emit rfl) (carries_writing rfl (carries_writing rfl (carries_emit rfl))))

theorem carries_ret (value : Option Expr) : (ret value).Carries F F (Expr.constantsOf F value) := by
  refine carries_next (carries_modify fun c hc => ⟨hc, rfl, rfl⟩) fun _ => ?_
  cases value with
  | some e =>
    exact carries_last e.carries_compile fun r =>
      carries_next (carries_move _ r) fun _ => carries_leave
  | none => exact carries_writing rfl carries_leave

theorem carries_asm (text : String) : (asm text).Carries F F [] := by
  unfold asm
  generalize Text.lines text.toList = ls
  induction ls with
  | nil => exact carries_pure ()
  | cons cs ls ih =>
    refine carries_next ?_ fun _ => ih
    dsimp only
    split
    · exact carries_plain rfl
    · exact carries_plain rfl

/-! ### Loop heads -/

theorem carries_forStart (init : Option ForInit) : (forStart init).Carries F (Stmt.afterInit F init)
    ((init.map (ForInit.constants F)).getD []) := by
  cases init with
  | none => exact carries_pure ()
  | some i =>
    cases i with
    | declare d => exact carries_varDecl d
    | assign x e => exact carries_assign x e

theorem carries_stepLabel (start : Label) (step : Option ForStep) :
    (stepLabel start step).Carries F F [] := by
  cases step with
  | none => exact carries_pure start
  | some st => exact carries_mint _

theorem carries_forTest (exit : Label) (c : Option Expr) :
    (forTest exit c).Carries F F (Expr.constantsOf F c) := by
  cases c with
  | none => exact carries_pure ()
  | some c =>
    exact carries_last c.carries_compile fun r => carries_drawing fun z =>
      carries_writing rfl (carries_emit rfl)

theorem carries_forNext (next : Label) (step : Option ForStep) :
    (forNext next step).Carries F F ((step.map (ForStep.constants F)).getD []) := by
  cases step with
  | none => exact carries_pure ()
  | some st =>
    refine carries_placing next ?_
    cases st with
    | increment x _ => exact carries_bump .add x
    | decrement x _ => exact carries_bump .sub x
    | assign x e => exact carries_assign x e

theorem carries_exitUnless (c : Expr) (exit : Label) :
    (exitUnless c exit).Carries F F (c.constants F) :=
  carries_last c.carries_compile fun _ => carries_emit rfl

end Compile

/-! ### Statements -/

namespace Stmt

theorem carries_compileAll {ss : List Stmt}
    (h : ∀ s ∈ ss, ∀ F : Frame, s.compile.Carries F (s.after F) (s.constants F)) :
    ∀ F : Frame, (compileAll ss).Carries F (afterAll F ss) (constantsAll F ss) := by
  induction ss with
  | nil =>
    intro F
    rw [compileAll, afterAll, constantsAll]
    exact carries_pure ()
  | cons s ss ih =>
    intro F
    obtain ⟨hs, hss⟩ := List.forall_mem_cons.mp h
    rw [compileAll, afterAll, constantsAll]
    exact carries_bind (hs F) fun _ => ih hss _

/-- The code of a statement moves the numbers of the statement. -/
theorem carries_compile (s : Stmt) :
    ∀ F : Frame, s.compile.Carries F (s.after F) (s.constants F) := by
  induction s with
  | decl d =>
    intro F
    rw [compile, after, constants]
    exact carries_decl d
  | assign x e =>
    intro F
    rw [compile, after, constants]
    · exact carries_assign x e
    all_goals simp
  | assignIndex a i e =>
    intro F
    rw [compile, after, constants]
    · exact carries_assignIndex a i e
    all_goals simp
  | assignDeref p e =>
    intro F
    rw [compile, after, constants]
    · exact carries_assignDeref p e
    all_goals simp
  | ret value =>
    intro F
    rw [compile, after, constants]
    · exact carries_ret value
    all_goals simp
  | ifThen c s ih =>
    intro F
    rw [compile, after, constants]
    refine carries_bind c.carries_compile fun r => carries_minting _ fun _ =>
      carries_minting _ fun done => carries_drawing fun z => ?_
    exact carries_writing rfl
      (carries_writing rfl (carries_last (ih F) fun _ => carries_place done))
  | ifElse c s t ihs iht =>
    intro F
    rw [compile, after, constants]
    refine carries_bind c.carries_compile fun r => carries_minting _ fun other =>
      carries_minting _ fun done => carries_drawing fun z => ?_
    refine carries_writing rfl (carries_writing rfl
      (carries_bind (ihs F) fun _ => carries_writing rfl (carries_placing other ?_)))
    exact carries_last (iht _) fun _ => carries_place done
  | whileLoop c s ih =>
    intro F
    rw [compile, after, constants]
    refine carries_minting _ fun start => carries_minting _ fun exit =>
      carries_inLoop (carries_placing start ?_)
    exact carries_bind (carries_exitUnless c exit) fun _ => carries_last (ih F) fun _ =>
      carries_writing rfl (carries_place exit)
  | doWhile s c ih =>
    intro F
    rw [compile, after, constants]
    refine carries_minting _ fun start => carries_minting _ fun test =>
      carries_minting _ fun exit => carries_inLoop ?_
    refine carries_placing start (carries_bind (ih F) fun _ =>
      carries_placing test (carries_last (carries_exitUnless c exit) fun _ => ?_))
    exact carries_writing rfl (carries_place exit)
  | forLoop init c step s ih =>
    intro F
    rw [compile_forLoop, after, constants]
    refine carries_bind (carries_forStart init) fun _ => carries_minting _ fun start =>
      carries_next (carries_stepLabel start step) fun next => ?_
    refine carries_minting _ fun exit =>
      carries_inLoop (carries_placing start (carries_bind (carries_forTest exit c) fun _ => ?_))
    refine carries_bind (ih _) fun _ => carries_last (carries_forNext next step) fun _ => ?_
    exact carries_writing rfl (carries_place exit)
  | block ss ih =>
    intro F
    rw [compile, after, constants]
    exact carries_compileAll ih F
  | call e =>
    intro F
    rw [compile, after, constants]
    · exact carries_callStatement e
    all_goals simp
  | increment x _ =>
    intro F
    rw [compile, after, constants]
    · exact carries_bump .add x
    all_goals simp
  | decrement x _ =>
    intro F
    rw [compile, after, constants]
    · exact carries_bump .sub x
    all_goals simp
  | breakLoop =>
    intro F
    rw [compile, after, constants]
    · refine carries_get fun c _ => ?_
      split
      · exact carries_emit rfl
      · exact carries_throw _
    all_goals simp
  | continueLoop =>
    intro F
    rw [compile, after, constants]
    · refine carries_get fun c _ => ?_
      split
      · exact carries_emit rfl
      · exact carries_throw _
    all_goals simp
  | asm text =>
    intro F
    rw [compile, after, constants]
    · exact carries_asm text
    all_goals simp
  | hole =>
    intro F
    rw [compile, after, constants]
    · exact carries_current (carries_throw _)
    all_goals simp

end Stmt

/-! ### Functions and programs -/

namespace Compile

variable {F : Frame}

theorem carries_loadParams (xs : List String) : ∀ i, (loadParams i xs).Carries F F
    ((List.range' (i + 1) xs.length).map fun n : Nat => (n : Int)) := by
  induction xs with
  | nil => exact fun _ => carries_pure ()
  | cons x xs ih =>
    intro i
    rw [loadParams, List.length_cons, List.range'_succ, List.map_cons]
    refine carries_next (carries_allocate x) fun r => carries_drawing fun a =>
      carries_writing rfl (carries_drawing fun n => ?_)
    exact carries_bind (carries_constant n _) fun _ =>
      carries_writing rfl (carries_writing rfl (ih (i + 1)))

theorem carries_finish : finish.Carries F F [] := by
  refine carries_get fun c _ => carries_ite ?_ (carries_pure ())
  exact carries_next (carries_plain rfl) fun _ => carries_writing rfl carries_leave

theorem carries_function (f : Func) : f.compile.Carries F (f.after F) (f.constants F) := by
  rw [Func.compile_eq]
  refine carries_get fun outer houter => ?_
  have henter : (modify (·.enter f) : Compile Unit).Carries F (F.enter f) [] := by
    refine carries_modify fun c hc => ⟨?_, rfl, rfl⟩
    subst hc
    rfl
  have hleave (G : Frame) : (modify (·.leave outer) : Compile Unit).Carries G (G.leave F) [] := by
    refine carries_modify fun c hc => ⟨?_, rfl, rfl⟩
    subst hc houter
    rfl
  have hlines : f.lines.Carries (F.enter f) (Stmt.afterAll (F.enter f) f.body) (f.constants F) := by
    refine carries_next (carries_plain rfl) fun _ => carries_get fun c _ =>
      carries_placing _ (carries_next (carries_plain rfl) fun _ => ?_)
    refine carries_drawing fun _ => carries_bind (carries_loadParams f.params 0) fun _ => ?_
    refine carries_next (carries_modify fun c hc => ⟨hc, rfl, rfl⟩) fun _ => ?_
    exact carries_last (Stmt.carries_compileAll (fun s _ => s.carries_compile) _)
      fun _ => carries_finish
  exact carries_next henter fun _ => carries_last hlines fun _ => hleave _

theorem carries_functionAll (fs : List Func) : ∀ F : Frame, (functionAll fs).Carries F
    (Program.afterFunctions F fs) (Program.constantsOfFunctions F fs) := by
  induction fs with
  | nil => exact fun _ => carries_pure ()
  | cons f fs ih => exact fun F => carries_bind (carries_function f) fun _ => ih _

theorem carries_globalAll (ds : List Decl) : ∀ F : Frame,
    (globalAll ds).Carries F (Program.afterGlobals F ds) (Program.constantsOfGlobals F ds) := by
  induction ds with
  | nil => exact fun _ => carries_pure ()
  | cons d ds ih => exact fun F => carries_bind (carries_decl d) fun _ => ih _

theorem carries_header (includes : List String) : (header includes).Carries F F [] := by
  have hincludes (paths : List String) :
      Carries F F [] (paths.forM fun path => line (includeLine path)) := by
    induction paths with
    | nil => exact carries_pure ()
    | cons path paths ih => exact carries_next (carries_plain rfl) fun _ => ih
  refine carries_next (carries_plain rfl) fun _ => carries_next (carries_plain rfl) fun _ => ?_
  exact carries_next (hincludes includes) fun _ => carries_plain rfl

theorem carries_mainLines (main : Option Func) : (mainLines main).Carries F
    (Program.afterFunctions F main.toList) (Program.constantsOfFunctions F main.toList) := by
  cases main with
  | none => exact carries_pure ()
  | some f =>
    rw [Option.toList_some, Program.constantsOfFunctions, Program.constantsOfFunctions,
      List.append_nil]
    exact carries_next (carries_plain rfl) fun _ => carries_next (carries_plain rfl) fun _ =>
      carries_function f

theorem carries_front (p : Program) (includes : List String) : (p.front includes).Carries {}
    (Program.afterGlobals p.frame p.globals) (Program.constantsOfGlobals p.frame p.globals) := by
  have hlink : (modify p.link : Compile Unit).Carries {} p.frame [] := by
    refine carries_modify fun c hc => ⟨?_, rfl, rfl⟩
    obtain ⟨hfunctions, hplaces, hslots, hcurrent⟩ := Frame.mk.inj hc
    simp [Compiler.frame, Program.frame, Program.link, hfunctions, hplaces, hslots, hcurrent]
  exact carries_next (carries_header includes) fun _ => carries_next hlink fun _ =>
    carries_globalAll p.globals _

/-- The data section moves nothing. -/
theorem constants_joinData {c : Compiler} (h : constants c.data.toList = []) :
    constants (joinData c).code.toList = constants c.code.toList := by
  unfold joinData
  split
  · rfl
  · have hgap : constants [.blank, .directive "; Data section"] = [] := rfl
    rw [Array.toList_append, Array.toList_append, constants_append, constants_append, hgap, h,
      List.append_nil, List.append_nil]

end Compile

/-! ### Listings -/

namespace Asm

/-- The numbers that an instruction has the bits for, with or without a sign. -/
def FitsField (v : Int) : Prop := -524288 ≤ v ∧ v < 1048576

instance (v : Int) : Decidable (FitsField v) := inferInstanceAs (Decidable (_ ∧ _))

/-- What is left of a number in the field of an instruction. -/
def cutToField (v : Int) : Int := v % 1048576

theorem Slight.fitsField {v : Int} (h : Slight v) : FitsField v :=
  ⟨by have := h.1; omega, by have := h.2; omega⟩

end Asm

namespace Program

variable {p : Program} {includes : List String} {lines : Array Line}

/-- A listing moves the numbers of its program, and no others but slight ones. -/
theorem mem_listing_iff (h : p.listing includes = .ok lines) {v : Int} (hv : ¬ Slight v) :
    v ∈ Asm.constants lines.toList ↔ v ∈ p.constants := by
  obtain ⟨k₁, k₂, k₃, hfront, hmain, hothers, rfl⟩ := listing_eq_ok h
  have hstart : Compiler.Carrying {} [] {} := ⟨rfl, fun _ _ => Iff.rfl, rfl⟩
  have hglobals := carries_front p includes _ _ _ _ hstart hfront
  have hentry := carries_mainLines p.mainFunction? _ _ _ _ hglobals hmain
  have hend := carries_functionAll p.otherFunctions _ _ _ _ _ hentry hothers
  rw [constants_joinData hend.data, hend.moved v hv, constants, compiled,
    constantsOfFunctions_append]
  simp

end Program

/-- The numbers that a listing moves are those of its program, and it keeps to the field of the
instruction set if and only if they do. Nothing in the compiler sees to that. -/
theorem listing_fits_iff (p : Program) (includes : List String) (lines : Array Line)
    (h : p.listing includes = .ok lines) :
    (∀ v, ¬ Slight v → ((∃ r, Line.instr (.mov r (.imm v)) ∈ lines) ↔ v ∈ p.constants)) ∧
      ((∀ r v, Line.instr (.mov r (.imm v)) ∈ lines → FitsField v) ↔
        ∀ v ∈ p.constants, FitsField v) := by
  have hmem (v : Int) (hv : ¬ Slight v) :
      (∃ r, Line.instr (.mov r (.imm v)) ∈ lines) ↔ v ∈ p.constants := by
    rw [← Program.mem_listing_iff h hv, mem_constants_iff]
    simp
  refine ⟨hmem, ?_, ?_⟩
  · intro hlines v hv
    by_cases hslight : Slight v
    · exact hslight.fitsField
    · obtain ⟨r, hr⟩ := (hmem v hslight).mpr hv
      exact hlines r v hr
  · intro hconstants r v hr
    by_cases hslight : Slight v
    · exact hslight.fitsField
    · exact hconstants v ((hmem v hslight).mp ⟨r, hr⟩)

/-- `uint32 seed = 4000000; function f(a, b) { uint32 t[2] = {9, a + b}; return t[1]; }` and a main
function with `uint32 x; uint32 y = f(1048575, seed); return *&y;`. -/
def roomy : Program where
  functions :=
    [{ name := "f", params := ["a", "b"], body :=
        [.decl (.array
            { name := "t", size := .literal 2
              init := some [.literal 9, .binary .add (.name "a") (.name "b")] }),
          .ret (some (.index "t" (.literal 1)))] },
      { name := "main", params := [], body :=
        [.decl (.var { name := "x" }),
          .decl (.var { name := "y", init := some (.call "f" [.literal 1048575, .name "seed"]) }),
          .ret (some (.deref (.addressOf (.name "y"))))] }]
  globals := [.var { name := "seed", init := some (.literal 4000000) }]

/-- A literal as large as the field allows, the number of arguments, a slot, the places of two
parameters and of an element, and a literal. The initial value of the global is not among them. -/
theorem roomy_fits : ∃ lines, roomy.listing defaultIncludes = .ok lines ∧ roomy.constants =
    [1048575, 2, 1, 1, 2, 1, 1] ∧ ∀ r v, Line.instr (.mov r (.imm v)) ∈ lines → FitsField v := by
  have hok : (roomy.listing defaultIncludes).isOk = true := by decide +kernel
  have hconstants : roomy.constants = [1048575, 2, 1, 1, 2, 1, 1] := by decide +kernel
  rcases hlines : roomy.listing defaultIncludes with e | lines
  · rw [hlines] at hok
    cases hok
  · refine ⟨lines, rfl, hconstants, (listing_fits_iff roomy defaultIncludes lines hlines).2.mpr ?_⟩
    rw [hconstants]
    decide

/-- `function main() { return 2000000; }` -/
def largeReturn : Program where
  functions := [{ name := "main", params := [], body := [.ret (some (.literal 2000000))] }]

theorem largeReturn_cut : ∃ lines, largeReturn.listing defaultIncludes = .ok lines ∧
    Line.instr (.mov 2 (.imm 2000000)) ∈ lines ∧ ¬ FitsField 2000000 ∧
    cutToField 2000000 = 951424 := by
  have hlisting : largeReturn.listing defaultIncludes = .ok #[.directive ";format binary", .blank,
      includeLine "../int_pack/ISA.inc", .blank, .directive "entry main", .blank, .blank,
      .label .main, .comment "Function: main", .instr (.mov 2 (.imm 2000000)),
      .instr (.mov 0 (.reg 2)), .instr .halt] := by decide +kernel
  exact ⟨_, hlisting, by simp, by decide, by decide⟩

end WordC
