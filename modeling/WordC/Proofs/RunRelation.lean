import WordC.Proofs.Running
import WordC.Proofs.Trees

/-!
# Relations between the start and the end of a step

Whatever a run does to the machine it does by a few small changes. A relation between machines that
holds across each of them holds between the start and the end of every step of a run, however the
step ends.

There are two relations, one for expressions and a weaker one for statements, since a statement may
declare a name in the scope it stands in. What a statement does to a scope of its own is gone when
that scope is closed, so a block, a loop with a head and a call are again as careful as an
expression.
-/

namespace WordC

open Run Step

/-- A scope with parameters only, as a call or a block opens it. -/
def Scope.Opened (s : Scope IntType) : Prop :=
  ∃ bindings : List (String × Int), s = bindings.foldl (fun s (x, v) => s.declare x v .uint32) {}

theorem Scope.opened_empty : ({} : Scope IntType).Opened := ⟨[], rfl⟩

theorem Func.opened_frame (f : Func) (args : List Int) : (f.frame args).Opened :=
  ⟨f.params.zip args, rfl⟩

/-- Relations that hold across every small change of the machine. -/
structure RunRelation where
  expr : Machine → Machine → Prop
  stmt : Machine → Machine → Prop
  expr_refl : ∀ m, expr m m
  expr_trans : ∀ {m₁ m₂ m₃}, expr m₁ m₂ → expr m₂ m₃ → expr m₁ m₃
  stmt_trans : ∀ {m₁ m₂ m₃}, stmt m₁ m₂ → stmt m₂ m₃ → stmt m₁ m₃
  stmt_of_expr : ∀ {m₁ m₂}, expr m₁ m₂ → stmt m₁ m₂
  address : ∀ {m x n c}, m.scopes.address x = .ok (n, c) → expr m { m with scopes := c }
  devices : ∀ m d, expr m { m with devices := d }
  declare : ∀ m x v t, stmt m (Run.declare x v t m).2
  declareArray : ∀ m a size, stmt m (Run.declareArray a size m).2
  registers : ∀ m (r : Fin 32) v names, stmt m { m with
    registers := m.registers.set r.val (Word.wrap v) r.isLt, registerNames := names }
  /-- A variable keeps its tag, or is given the tag that its name has. -/
  assign : ∀ {m x v t c}, t = none ∨ t = some ((m.scopes.typeOf? x).getD .uint32) →
    m.scopes.assign x v t = .ok c → stmt m { m with scopes := c }
  setElement : ∀ {m a i v c}, m.scopes.setElement a i v = .ok c → stmt m { m with scopes := c }
  store : ∀ {m a v c}, m.scopes.store a v = .ok c → stmt m { m with scopes := c }
  warned : ∀ m, stmt m { m with asmWarned := true }
  inside : ∀ {m m' : Machine} {s}, s.Opened → stmt { m with scopes := s :: m.scopes } m' →
    expr m { m' with scopes := m'.scopes.tail }

/-- A step stays within a relation, whether it ends in a value or in a signal. -/
def Run.Within {α : Type} (step : Run α) (R : Machine → Machine → Prop) : Prop :=
  ∀ m, R m (step m).2

namespace RunRelation

variable (R : RunRelation) {α β : Type} {calls : Calls}

theorem stmt_refl (m : Machine) : R.stmt m m := R.stmt_of_expr (R.expr_refl m)

variable {x : Run α} {f : α → Run β}

theorem bind_within (S : Machine → Machine → Prop)
    (htrans : ∀ m₁ m₂ m₃, S m₁ m₂ → S m₂ m₃ → S m₁ m₃) (hx : x.Within S)
    (hf : ∀ a, (f a).Within S) : (x >>= f).Within S := by
  intro m
  have hm := hx m
  rw [bind_apply]
  rcases hxm : x m with ⟨e | a, m'⟩
  · rw [hxm] at hm
    exact hm
  · rw [hxm] at hm
    exact htrans m m' _ hm (hf a m')

theorem bind_expr (hx : x.Within R.expr) (hf : ∀ a, (f a).Within R.expr) :
    (x >>= f).Within R.expr := bind_within R.expr (fun _ _ _ => R.expr_trans) hx hf

theorem bind_stmt (hx : x.Within R.stmt) (hf : ∀ a, (f a).Within R.stmt) :
    (x >>= f).Within R.stmt := bind_within R.stmt (fun _ _ _ => R.stmt_trans) hx hf

theorem stmt_within (hx : x.Within R.expr) : x.Within R.stmt := fun m => R.stmt_of_expr (hx m)

/-- A check in front of a step: the machine is left alone when it fails. -/
theorem checked_within {S : Machine → Machine → Prop} (hrefl : ∀ m, S m m) {c : Prop} [Decidable c]
    (e : RunError) (hx : x.Within S) :
    (if c then fail e >>= fun _ : Unit => x else x).Within S := by
  intro m
  split
  · exact hrefl m
  · exact hx m

/-! ### The smallest steps -/

theorem pure_expr (a : α) : (pure a : Run α).Within R.expr := fun m => R.expr_refl m

theorem throw_expr (s : Signal) : (throw s : Run α).Within R.expr := fun m => R.expr_refl m

theorem fail_expr (e : RunError) : (fail e : Run α).Within R.expr := fun m => R.expr_refl m

theorem get_expr : (get : Run Machine).Within R.expr := fun m => R.expr_refl m

theorem ofScope_expr (x : Except ScopeError α) : (ofScope x).Within R.expr := by
  cases x with
  | ok a => exact R.pure_expr a
  | error e => exact R.fail_expr (.scope e)

theorem reading_expr (f : Chain IntType → Except ScopeError α) : (reading f).Within R.expr :=
  R.bind_expr R.get_expr fun m => R.ofScope_expr (f m.scopes)

theorem typeOf_expr (x : String) : (typeOf x).Within R.expr := fun m => R.expr_refl m

theorem typeAt_expr (a : Int) : (typeAt a).Within R.expr := by
  refine R.bind_expr R.get_expr fun m => ?_
  split
  · split
    · exact R.typeOf_expr _
    · exact R.pure_expr _
  · exact R.pure_expr _

theorem readVariable_expr (x : String) : (readVariable x).Within R.expr := by
  refine R.bind_expr R.get_expr fun m => ?_
  have hrest (v : Int) : (do return ⟨Word.wrap v, ← typeOf x⟩ : Run Value).Within R.expr :=
    R.bind_expr (R.typeOf_expr x) fun t => R.pure_expr _
  split
  · exact R.bind_expr (R.pure_expr _) hrest
  · exact R.bind_expr (R.reading_expr _) hrest

theorem address_expr (x : String) : (Run.address x).Within R.expr := by
  intro m
  unfold Run.address
  rw [bind_ok (get_apply m)]
  cases haddress : m.scopes.address x with
  | error e =>
    rw [bind_error (ofScope_error e m)]
    exact R.expr_refl m
  | ok found =>
    obtain ⟨cell, c⟩ := found
    rw [bind_ok (ofScope_ok (cell, c) m)]
    exact R.address haddress

theorem deviceCall_expr (name : String) (args : List Int) :
    (deviceCall name args).Within R.expr := by
  intro m
  unfold deviceCall
  rw [bind_ok (get_apply m)]
  cases m.devices.callNamed name args with
  | ok answer => exact R.devices m answer.2
  | error e => exact R.expr_refl m

/-- A change of the scopes that may fail. -/
theorem changing_stmt {f : Chain IntType → Except ScopeError (Chain IntType)} {m : Machine}
    (h : ∀ c, f m.scopes = .ok c → R.stmt m { m with scopes := c }) :
    R.stmt m (changing f m).2 := by
  rw [changing_apply]
  cases hf : f m.scopes with
  | error e => exact R.stmt_refl m
  | ok c => exact h c hf

/-! ### Expressions -/

/-- Calls of functions stay within the relation of expressions. -/
def Careful (calls : Calls) : Prop := ∀ f args, (calls.invoke f args).Within R.expr

/-- The expressions right below one that are evaluated when its address is asked for. -/
def addressOperands : Expr → List Expr
  | .index _ i => [i]
  | .deref e => [e]
  | _ => []

theorem addressOf_expr {e : Expr} (h : ∀ d ∈ addressOperands e, (d.eval calls).Within R.expr) :
    ((Expr.addressOf e).eval calls).Within R.expr := by
  cases e with
  | name x =>
    rw [Expr.eval]
    exact R.bind_expr (R.address_expr x) fun _ => R.pure_expr _
  | index a i =>
    rw [Expr.eval]
    refine R.bind_expr (h i List.mem_cons_self) fun _ => ?_
    exact R.bind_expr (R.address_expr a) fun _ => R.pure_expr _
  | deref d =>
    rw [Expr.eval]
    exact R.bind_expr (h d List.mem_cons_self) fun _ => R.pure_expr _
  | _ => exact R.fail_expr _

theorem evalAll_expr {es : List Expr} (h : ∀ e ∈ es, (e.eval calls).Within R.expr) :
    (Expr.evalAll calls es).Within R.expr := by
  induction es with
  | nil =>
    rw [Expr.evalAll]
    exact R.pure_expr _
  | cons e es ih =>
    obtain ⟨he, hes⟩ := List.forall_mem_cons.mp h
    rw [Expr.evalAll]
    exact R.bind_expr he fun _ => R.bind_expr (ih hes) fun _ => R.pure_expr _

theorem eval_expr (hcalls : R.Careful calls) (e : Expr) : (e.eval calls).Within R.expr := by
  -- the address of an index or of a dereference evaluates what stands below, hence the second part
  suffices h : (e.eval calls).Within R.expr ∧
    ∀ d ∈ addressOperands e, (d.eval calls).Within R.expr from h.1
  induction e with
  | literal n =>
    rw [Expr.eval]
    exact ⟨R.pure_expr _, List.forall_mem_nil _⟩
  | name x =>
    rw [Expr.eval]
    exact ⟨R.readVariable_expr x, List.forall_mem_nil _⟩
  | index a i ih =>
    rw [Expr.eval]
    refine ⟨R.bind_expr ih.1 fun _ => ?_, List.forall_mem_singleton.mpr ih.1⟩
    exact R.bind_expr (R.reading_expr _) fun _ => R.pure_expr _
  | addressOf e ih => exact ⟨R.addressOf_expr ih.2, List.forall_mem_nil _⟩
  | deref e ih =>
    rw [Expr.eval]
    refine ⟨R.bind_expr ih.1 fun p => ?_, List.forall_mem_singleton.mpr ih.1⟩
    exact R.bind_expr (R.reading_expr _) fun _ =>
      R.bind_expr (R.typeAt_expr p.value) fun _ => R.pure_expr _
  | unary op e ih =>
    rw [Expr.eval]
    exact ⟨R.bind_expr ih.1 fun _ => R.pure_expr _, List.forall_mem_nil _⟩
  | binary op l r ihl ihr =>
    rw [Expr.eval]
    refine ⟨R.bind_expr ihl.1 fun _ => R.bind_expr ihr.1 fun _ => ?_, List.forall_mem_nil _⟩
    split
    · exact R.pure_expr _
    · exact R.fail_expr _
  | call f args ih =>
    have hargs := R.evalAll_expr fun a ha => (ih a ha).1
    rw [Expr.eval]
    refine ⟨?_, List.forall_mem_nil _⟩
    split
    · exact R.bind_expr hargs fun _ => R.bind_expr (R.deviceCall_expr f _) fun _ => R.pure_expr _
    · split
      · exact R.fail_expr _
      · exact R.bind_expr hargs fun _ => R.bind_expr (hcalls _ _) fun _ => R.pure_expr _
  | foreignUnary op e ih =>
    rw [Expr.eval]
    exact ⟨R.bind_expr ih.1 fun _ => R.fail_expr _, List.forall_mem_nil _⟩
  | foreignBinary op l r ihl ihr =>
    rw [Expr.eval]
    exact ⟨R.bind_expr ihl.1 fun _ => R.bind_expr ihr.1 fun _ =>
      R.fail_expr _, List.forall_mem_nil _⟩
  | hole =>
    rw [Expr.eval]
    exact ⟨R.fail_expr _, List.forall_mem_nil _⟩

/-! ### Declarations and assignments -/

theorem declare_stmt (x : String) (v : Int) (t : IntType) : (Run.declare x v t).Within R.stmt :=
  fun m => R.declare m x v t

theorem bump_stmt (x : String) (amount : Int) : (bump x amount).Within R.stmt := by
  refine R.bind_stmt (R.stmt_within (R.reading_expr _)) fun _ m => ?_
  exact R.changing_stmt fun _ => R.assign (.inl rfl)

section Careful

variable (hcalls : R.Careful calls)

include hcalls

theorem varDecl_stmt (d : VarDecl) : (varDecl calls d).Within R.stmt := by
  unfold varDecl
  dsimp only
  split
  case' h_1 => refine R.bind_stmt (R.stmt_within (R.eval_expr hcalls _)) fun _ => ?_
  -- the value is known, with or without an initial expression
  all_goals
    refine R.bind_stmt (R.stmt_within (R.pure_expr _)) fun v => ?_
    split
    · exact R.bind_stmt (fun m => R.registers m _ v _) fun _ => R.declare_stmt _ _ _
    · exact R.declare_stmt _ _ _

theorem pointerDecl_stmt (d : PointerDecl) : (pointerDecl calls d).Within R.stmt := by
  unfold pointerDecl
  dsimp only
  split
  · refine R.bind_stmt (R.stmt_within (R.eval_expr hcalls _)) fun _ => ?_
    exact R.bind_stmt (R.stmt_within (R.pure_expr _)) fun _ => R.declare_stmt _ _ _
  · exact R.bind_stmt (R.stmt_within (R.pure_expr _)) fun _ => R.declare_stmt _ _ _

theorem fill_stmt (a : String) (es : List Expr) :
    ∀ i, (fill calls a i es).Within R.stmt := by
  induction es with
  | nil => exact fun _ => R.stmt_within (R.pure_expr _)
  | cons e es ih =>
    intro i
    refine R.bind_stmt (R.stmt_within (R.eval_expr hcalls e)) fun _ => ?_
    exact R.bind_stmt (fun m => R.changing_stmt fun _ => R.setElement) fun _ => ih (i + 1)

theorem arrayDecl_stmt (d : ArrayDecl) : (arrayDecl calls d).Within R.stmt := by
  unfold arrayDecl
  split
  · refine R.bind_stmt (fun m => R.declareArray m d.name _) fun _ => ?_
    exact checked_within R.stmt_refl _ (R.fill_stmt hcalls _ _ _)
  · exact R.stmt_within (R.fail_expr _)

theorem decl_stmt (d : Decl) : (Run.decl calls d).Within R.stmt := by
  cases d with
  | var d => exact R.varDecl_stmt hcalls d
  | array d => exact R.arrayDecl_stmt hcalls d
  | pointer d => exact R.pointerDecl_stmt hcalls d

/-- An assignment hands on the tag that the name has when the value is known. -/
theorem assign_stmt (x : String) (e : Expr) : (Run.assign calls x e).Within R.stmt := by
  refine R.bind_stmt (R.stmt_within (R.eval_expr hcalls e)) fun v => ?_
  intro m
  rw [bind_ok (typeOf_apply x m), bind_ok (get_apply m)]
  have hassign (n : Machine) (hn : n.scopes = m.scopes) :
      R.stmt n (changing (·.assign x v.value (some ((m.scopes.typeOf? x).getD .uint32))) n).2 := by
    refine R.changing_stmt fun c hc => R.assign (.inr ?_) hc
    rw [hn]
  cases m.registerNames.get? x with
  | none => exact hassign m rfl
  | some r =>
    dsimp only
    split
    · exact R.stmt_refl m
    · exact R.stmt_trans (R.registers m r v.value m.registerNames) (hassign _ rfl)

theorem truth_expr (e : Expr) : (truth calls e).Within R.expr :=
  R.bind_expr (R.eval_expr hcalls e) fun _ => R.pure_expr _

theorem callStatement_expr (e : Expr) : (callStatement calls e).Within R.expr := by
  unfold callStatement
  split
  · exact R.bind_expr (R.eval_expr hcalls _) fun _ => R.pure_expr _
  · exact R.fail_expr _

theorem forInit_stmt (i : ForInit) : (forInit calls i).Within R.stmt := by
  cases i with
  | declare d => exact R.varDecl_stmt hcalls d
  | assign x e => exact R.assign_stmt hcalls x e

theorem forStep_stmt (s : ForStep) : (forStep calls s).Within R.stmt := by
  cases s with
  | increment x _ => exact R.bump_stmt x 1
  | decrement x _ => exact R.bump_stmt x (-1)
  | assign x e => exact R.assign_stmt hcalls x e

end Careful

/-! ### Loops and scopes -/

theorem inside_expr {s : Scope IntType} (hs : s.Opened) {step : Run α} (h : step.Within R.stmt) :
    (Run.inside s step).Within R.expr := fun m => R.inside hs (h { m with scopes := s :: m.scopes })

theorem attempt_stmt {body : Run Unit} (h : body.Within R.stmt) : (attempt body).Within R.stmt := by
  intro m
  rw [attempt_snd]
  exact h m

theorem answer_stmt {body : Run Unit} (h : body.Within R.stmt) : (answer body).Within R.stmt := by
  intro m
  rw [answer_snd]
  exact h m

theorem iterate_stmt {round : Run Bool} (h : round.Within R.stmt) :
    ∀ fuel, (iterate round fuel).Within R.stmt := by
  intro fuel
  induction fuel with
  | zero => exact R.stmt_within (R.throw_expr _)
  | succ fuel ih =>
    refine R.bind_stmt h fun goesOn => ?_
    cases goesOn with
    | true => exact ih
    | false => exact R.stmt_within (R.pure_expr _)

/-! ### Statements -/

theorem execAll_stmt {fuel : Nat} {ss : List Stmt}
    (h : ∀ s ∈ ss, (s.exec calls fuel).Within R.stmt) :
    (Stmt.execAll calls fuel ss).Within R.stmt := by
  induction ss with
  | nil =>
    rw [Stmt.execAll]
    exact R.stmt_within (R.pure_expr _)
  | cons s ss ih =>
    obtain ⟨hs, hss⟩ := List.forall_mem_cons.mp h
    rw [Stmt.execAll]
    exact R.bind_stmt hs fun _ => ih hss

theorem forLoop_expr (hcalls : R.Careful calls) {fuel : Nat} (init : Option ForInit)
    (c : Option Expr) (step : Option ForStep) {s : Stmt} (hs : (s.exec calls fuel).Within R.stmt) :
    ((Stmt.forLoop init c step s).exec calls fuel).Within R.expr := by
  rw [Stmt.exec]
  refine R.inside_expr Scope.opened_empty ?_
  dsimp only
  split
  case' h_1 => refine R.bind_stmt (R.forInit_stmt hcalls _) fun _ => ?_
  -- one round: the condition if there is one, the body, the step if there is one
  all_goals
    refine R.iterate_stmt ?_ fuel
    split
    case' h_1 => refine R.bind_stmt (R.stmt_within (R.truth_expr hcalls _)) fun holds => ?_
    case' h_2 => refine R.bind_stmt (R.stmt_within (R.pure_expr _)) fun holds => ?_
    all_goals
      cases holds with
      | false => exact R.stmt_within (R.pure_expr _)
      | true =>
        refine R.bind_stmt (R.attempt_stmt hs) fun goesOn => ?_
        cases goesOn with
        | false => exact R.stmt_within (R.pure_expr _)
        | true =>
          split
          · contradiction
          · split
            · exact R.bind_stmt (R.forStep_stmt hcalls _) fun _ => R.stmt_within (R.pure_expr _)
            · exact R.stmt_within (R.pure_expr _)

theorem exec_stmt (hcalls : R.Careful calls) (fuel : Nat) (s : Stmt) :
    (s.exec calls fuel).Within R.stmt := by
  have heval (e : Expr) : (e.eval calls).Within R.stmt := R.stmt_within (R.eval_expr hcalls e)
  have htruth (e : Expr) : (truth calls e).Within R.stmt := R.stmt_within (R.truth_expr hcalls e)
  induction s with
  | decl d =>
    rw [Stmt.exec]
    exact R.decl_stmt hcalls d
  | assign x e =>
    rw [Stmt.exec]
    exact R.assign_stmt hcalls x e
  | assignIndex a i e =>
    rw [Stmt.exec]
    exact R.bind_stmt (heval i) fun _ => R.bind_stmt (heval e) fun _ m =>
      R.changing_stmt fun _ => R.setElement
  | assignDeref p e =>
    rw [Stmt.exec]
    exact R.bind_stmt (heval p) fun _ => R.bind_stmt (heval e) fun _ m =>
      R.changing_stmt fun _ => R.store
  | ret e =>
    cases e with
    | none =>
      rw [Stmt.exec]
      exact R.stmt_within (R.throw_expr _)
    | some e =>
      rw [Stmt.exec]
      exact R.bind_stmt (heval e) fun _ => R.stmt_within (R.throw_expr _)
  | ifThen c s ih =>
    rw [Stmt.exec]
    refine R.bind_stmt (htruth c) fun holds => ?_
    cases holds with
    | true => exact ih
    | false => exact R.stmt_within (R.pure_expr _)
  | ifElse c s t ihs iht =>
    rw [Stmt.exec]
    refine R.bind_stmt (htruth c) fun holds => ?_
    cases holds with
    | true => exact ihs
    | false => exact iht
  | whileLoop c s ih =>
    rw [Stmt.exec]
    refine R.iterate_stmt (R.bind_stmt (htruth c) fun holds => ?_) fuel
    cases holds with
    | true => exact R.attempt_stmt ih
    | false => exact R.stmt_within (R.pure_expr _)
  | doWhile s c ih =>
    rw [Stmt.exec]
    refine R.iterate_stmt (R.bind_stmt (R.attempt_stmt ih) fun goesOn => ?_) fuel
    cases goesOn with
    | true => exact htruth c
    | false => exact R.stmt_within (R.pure_expr _)
  | forLoop init c step s ih => exact R.stmt_within (R.forLoop_expr hcalls init c step ih)
  | block ss ih =>
    rw [Stmt.exec]
    exact R.stmt_within (R.inside_expr Scope.opened_empty (R.execAll_stmt ih))
  | call e =>
    rw [Stmt.exec]
    exact R.stmt_within (R.callStatement_expr hcalls e)
  | increment x _ =>
    rw [Stmt.exec]
    exact R.bump_stmt x 1
  | decrement x _ =>
    rw [Stmt.exec]
    exact R.bump_stmt x (-1)
  | breakLoop | continueLoop =>
    rw [Stmt.exec]
    exact R.stmt_within (R.throw_expr _)
  | asm text =>
    rw [Stmt.exec]
    exact fun m => R.warned m
  | hole =>
    rw [Stmt.exec]
    exact R.stmt_within (R.fail_expr _)

/-! ### Functions and programs -/

theorem func_expr (hcalls : R.Careful calls) (f : Func) (fuel : Nat) (args : List Int) :
    (f.run calls fuel args).Within R.expr := by
  have hbody :
      (Run.inside (f.frame args) (answer (Stmt.exec calls fuel (.block f.body)))).Within R.expr :=
    R.inside_expr (f.opened_frame args) (R.answer_stmt (R.exec_stmt hcalls fuel _))
  exact checked_within R.expr_refl _ hbody

/-- Calls of a program's functions, however deep they may nest. -/
theorem calls_careful (p : Program) (fuel : Nat) : R.Careful (p.calls fuel) := by
  induction fuel with
  | zero => exact fun _ _ => R.throw_expr _
  | succ fuel ih => exact fun f args => R.func_expr ih f fuel args

theorem global_stmt (hcalls : R.Careful calls) (d : Decl) : (Run.global calls d).Within R.stmt := by
  cases d with
  | var d => exact R.varDecl_stmt hcalls d
  | array d =>
    exact checked_within R.stmt_refl _ (checked_within R.stmt_refl _ (R.declare_stmt _ _ _))
  | pointer d =>
    unfold Run.global
    dsimp only
    split
    case' h_1 => refine R.bind_stmt (R.stmt_within (R.eval_expr hcalls _)) fun _ => ?_
    all_goals
      refine R.bind_stmt (R.stmt_within (R.pure_expr _)) fun _ => ?_
      exact checked_within R.stmt_refl _ (R.declare_stmt _ _ _)

theorem declareGlobals_stmt (hcalls : R.Careful calls) (ds : List Decl) :
    (Program.declareGlobals calls ds).Within R.stmt := by
  induction ds with
  | nil => exact R.stmt_within (R.pure_expr _)
  | cons d ds ih => exact R.bind_stmt (R.global_stmt hcalls d) fun _ => ih

/-- A whole run. -/
theorem run_stmt (p : Program) (fuel : Nat) : (p.run fuel).Within R.stmt := by
  have hcalls := R.calls_careful p fuel
  refine R.bind_stmt (R.declareGlobals_stmt hcalls p.globals) fun _ => R.stmt_within ?_
  split
  · exact R.fail_expr _
  · exact checked_within R.expr_refl _ (hcalls _ _)

end RunRelation

end WordC
