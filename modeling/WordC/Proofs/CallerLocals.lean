import WordC.Proofs.LoopControl
import WordC.Proofs.SplicedScopes

/-!
# What a function sees of its caller

The scope of a call stands inside the scopes of its caller, so a name that a function does not
declare is looked up there before it is looked up among the globals. Scopes of the caller that have
none of the free names of a function, and of the functions that it can call, are passed over: the
run is the one without them, and they are as before when it ends. A store through a pointer finds
its cell by number, so this is for functions without pointers.
-/

namespace WordC

open Run Step

/-- A use that finds nothing in scopes. A function that is called must run as it would without them.
-/
def Use.Passes (calls : Calls) (locals : Chain IntType) : Use → Prop
  | .func name =>
    ∀ g, calls.find? name = some g → ∀ k args, (calls.invoke g args).Ignores locals k [] []
  | .pointer => False
  | u => ∀ s ∈ locals, s.Lacks u

/-- A use that declarations settle or that passes over scopes. -/
def Use.Clear (calls : Calls) (locals : Chain IntType) (B : List Use) (u : Use) : Prop :=
  u.bound B = true ∨ u.Passes calls locals

section

variable {calls : Calls} {locals : Chain IntType} {k : Nat} {B : List Use}
  {m : Machine} {x a : String}

theorem Use.clear_of_unbound {us : List Use} (h : ∀ u ∈ Use.unbound B us, u.Passes calls locals) :
    ∀ u ∈ us, u.Clear calls locals B := by
  intro u hu
  by_cases hb : u.bound B = true
  · exact .inl hb
  · exact .inr (h u (List.mem_filter.mpr ⟨hu, by simpa using hb⟩))

theorem Use.not_clear_pointer : ¬ Use.pointer.Clear calls locals B := by
  rintro (hb | hp)
  · exact Bool.false_ne_true hb
  · exact hp

theorem Machine.Ready.settles_var (hm : m.Ready k B) (h : (Use.var x).Clear calls locals B) :
    Chain.Settles locals k m.scopes (.var x) := by
  rcases h with hb | hp
  · exact .inl (hm.settled _ (of_decide_eq_true hb))
  · exact .inr hp

theorem Machine.Ready.settles_array (hm : m.Ready k B) (h : (Use.array a).Clear calls locals B) :
    Chain.Settles locals k m.scopes (.array a) := by
  rcases h with hb | hp
  · exact .inl (hm.settled _ (of_decide_eq_true hb))
  · exact .inr hp

/-! ### Names -/

namespace Run

theorem ignores_get (h : (Use.var x).Clear calls locals B) :
    (reading (·.get x)).Ignores locals k B B :=
  ignores_reading fun _ hm => Chain.get_splice hm.depth (hm.settles_var h)

theorem ignores_element (h : (Use.array a).Clear calls locals B) (i : Int) :
    (reading (·.element a i)).Ignores locals k B B :=
  ignores_reading fun _ hm => Chain.element_splice hm.depth (hm.settles_array h) i

theorem ignores_assignTo (h : (Use.var x).Clear calls locals B) (v : Int) (t : Option IntType) :
    (changing (·.assign x v t)).Ignores locals k B B :=
  ignores_changing (fun _ hm => Chain.assign_splice hm.depth (hm.settles_var h) v t) fun _ _ hc =>
    (Chain.changed_assign hc).grown

theorem ignores_setElement (h : (Use.array a).Clear calls locals B) (i v : Int) :
    (changing (·.setElement a i v)).Ignores locals k B B :=
  ignores_changing (fun _ hm => Chain.setElement_splice hm.depth (hm.settles_array h) i v)
  fun _ _ hc =>
    (Chain.edited_setElement hc).changed.grown

theorem ignores_typeOf (h : (Use.var x).Clear calls locals B) :
    (typeOf x).Ignores locals k B B := by
  intro m hm
  refine .of_grown hm ?_ (.refl m)
  rw [typeOf_apply, typeOf_apply, Machine.splice, Chain.typeOf?_splice hm.depth (hm.settles_var h)]

/-- A step that first looks at the registers and devices, which the scopes put in do not touch. -/
theorem ignores_get_bind {α : Type} {B' : List Use} {f : Machine → Run α}
    (hf : ∀ m, (f m).Ignores locals k B B') (hsplice : ∀ m : Machine, f (m.splice locals k) = f m) :
    (get >>= f).Ignores locals k B B' := by
  intro m hm
  obtain ⟨hsame, hgrown, hsettled⟩ := hf m m hm
  have hget : (get >>= f) m = f m m := bind_ok (get_apply m)
  refine ⟨?_, ?_, ?_⟩
  · rw [bind_ok (get_apply (m.splice locals k)), hsplice m, hsame, hget]
  · rw [hget]
    exact hgrown
  · rw [hget]
    exact hsettled

theorem ignores_readVariable (h : (Use.var x).Clear calls locals B) :
    (readVariable x).Ignores locals k B B := by
  refine ignores_get_bind (fun m => ?_) fun m => rfl
  have hrest (v : Int) : (do return ⟨Word.wrap v, ← typeOf x⟩ : Run Value).Ignores locals k B B :=
    (ignores_typeOf h).bind fun _ => ignores_pure _
  split
  · exact (ignores_pure _).bind hrest
  · exact (ignores_get h).bind hrest

theorem ignores_address (h : (Use.address x).Clear calls locals B) :
    (Run.address x).Ignores locals k B B := by
  intro m hm
  have hsettled : (∃ i < k, m.scopes.HasAt i (.var x)) ∨ (∃ i < k, m.scopes.HasAt i (.array x)) ∨
      ∀ s ∈ locals, s.Lacks (.address x) := by
    rcases h with hb | hp
    · rcases of_decide_eq_true hb with hvar | harray
      · exact .inl (hm.settled _ hvar)
      · exact .inr (.inl (hm.settled _ harray))
    · exact .inr (.inr hp)
  unfold Run.address
  refine .of_grown hm ?_ ?_
  · rw [bind_ok (get_apply m), bind_ok (get_apply (m.splice locals k)), Machine.splice,
      Chain.address_splice hm.depth hsettled]
    cases m.scopes.address x <;> rfl
  · rw [bind_ok (get_apply m)]
    cases haddress : m.scopes.address x with
    | error e => exact .refl m
    | ok found =>
      show m.scopes.Grown found.2
      rcases Chain.edited_address haddress with heq | hch
      · rw [heq]
        exact .refl m.scopes
      · exact hch.changed.grown

theorem ignores_deviceCall (name : String) (args : List Int) :
    (deviceCall name args).Ignores locals k B B := by
  intro m hm
  unfold deviceCall
  refine .of_grown hm ?_ ?_
  · rw [bind_ok (get_apply m), bind_ok (get_apply (m.splice locals k)),
      show (m.splice locals k).devices = m.devices from rfl]
    cases m.devices.callNamed name args <;> rfl
  · rw [bind_ok (get_apply m)]
    cases m.devices.callNamed name args with
    | ok answer => exact .refl m
    | error e => exact .refl m

end Run

/-! ### Expressions -/

namespace Expr

theorem evalAll_ignores {es : List Expr}
    (ih : ∀ e ∈ es, (∀ u ∈ e.uses, u.Clear calls locals B) → (e.eval calls).Ignores locals k B B)
    (h : ∀ u ∈ usesAll es, u.Clear calls locals B) : (evalAll calls es).Ignores locals k B B := by
  induction es with
  | nil =>
    rw [evalAll]
    exact ignores_pure _
  | cons e es ihes =>
    rw [usesAll, List.forall_mem_append] at h
    obtain ⟨he, hes⟩ := List.forall_mem_cons.mp ih
    rw [evalAll]
    exact (he h.1).bind fun _ => (ihes hes h.2).bind fun _ => ignores_pure _

/-- An expression whose names are settled or pass over the scopes put in. -/
theorem eval_ignores (e : Expr) (h : ∀ u ∈ e.uses, u.Clear calls locals B) :
    (e.eval calls).Ignores locals k B B := by
  induction e using Expr.address_induction with
  | literal n =>
    rw [eval]
    exact ignores_pure _
  | name x =>
    rw [eval]
    exact ignores_readVariable (h _ (by simp [uses]))
  | index a i ih =>
    rw [uses, List.forall_mem_cons] at h
    rw [eval]
    exact (ih h.2).bind fun v => (ignores_element h.1 v.value).bind fun _ => ignores_pure _
  | addressOf e ihi ihd =>
    cases e with
    | name x =>
      rw [eval]
      exact (ignores_address (h _ (by simp [uses]))).bind fun _ => ignores_pure _
    | index a i =>
      rw [uses, List.forall_mem_cons] at h
      rw [eval]
      exact (ihi a i rfl h.2).bind fun _ => (ignores_address h.1).bind fun _ => ignores_pure _
    | deref d => exact absurd (h .pointer (by simp [uses])) Use.not_clear_pointer
    | _ => exact ignores_fail _
  | deref e ih => exact absurd (h .pointer (by simp [uses])) Use.not_clear_pointer
  | unary op e ih =>
    rw [uses] at h
    rw [eval]
    exact (ih h).bind fun _ => ignores_pure _
  | binary op l r ihl ihr =>
    rw [uses, List.forall_mem_append] at h
    rw [eval]
    refine (ihl h.1).bind fun _ => (ihr h.2).bind fun _ => ?_
    split
    · exact ignores_pure _
    · exact ignores_fail _
  | call f args ih =>
    rw [uses, List.forall_mem_append] at h
    have hargs := evalAll_ignores ih h.2
    rw [eval]
    split
    · exact hargs.bind fun vs => (ignores_deviceCall f vs).bind fun _ => ignores_pure _
    · next hdevice =>
      split
      · exact ignores_fail _
      · next g hg =>
        have hfunc : (Use.func f).Clear calls locals B := h.1 _ (by simp [hdevice])
        have hinvoke := (hfunc.resolve_left Bool.false_ne_true) g hg
        exact hargs.bind fun vs => (hinvoke k vs).of_nil.bind fun _ => ignores_pure _
  | foreignUnary op e ih =>
    rw [uses] at h
    rw [eval]
    exact (ih h).bind fun _ => ignores_fail _
  | foreignBinary op l r ihl ihr =>
    rw [uses, List.forall_mem_append] at h
    rw [eval]
    exact (ihl h.1).bind fun _ => (ihr h.2).bind fun _ => ignores_fail _
  | hole =>
    rw [eval]
    exact ignores_fail _

end Expr

/-! ### Declarations and assignments -/

namespace Run

theorem ignores_declare (x : String) (v : Int) (t : IntType) :
    (declare x v t).Ignores locals (k + 1) B (.var x :: B) := by
  intro m hm
  obtain ⟨s, rest, hscopes⟩ := hm.exists_scope
  have hspliced : (m.splice locals (k + 1)).scopes = s :: Chain.splice locals k rest := by
    rw [Machine.splice, hscopes]
    rfl
  have hgrown : m.Grown { m with scopes := s.declare x v t :: rest } := by
    rw [Machine.Grown, hscopes]
    exact (Chain.Changed.here (.declare x v t)).grown
  have hdeclare := declare_cons hscopes x v t
  refine ⟨?_, ?_, ?_⟩
  · rw [hdeclare, declare_cons hspliced]
    rfl
  · rw [hdeclare]
    exact hgrown
  · rw [hdeclare]
    intro _ _
    exact hm.cons hgrown ⟨s.declare x v t, rfl, s.has_declare x v t⟩

theorem ignores_declareArray (a : String) (size : Nat) :
    (Run.declareArray a size).Ignores locals (k + 1) B (.array a :: B) := by
  intro m hm
  obtain ⟨s, rest, hscopes⟩ := hm.exists_scope
  have hspliced : (m.splice locals (k + 1)).scopes = s :: Chain.splice locals k rest := by
    rw [Machine.splice, hscopes]
    rfl
  have hdeclare := declareArray_cons hscopes a size
  rw [changing_apply] at hdeclare
  have hdeclare' := declareArray_cons hspliced a size
  rw [changing_apply] at hdeclare'
  cases hs : s.declareArray a size with
  | error e =>
    rw [hs] at hdeclare hdeclare'
    refine ⟨?_, ?_, ?_⟩
    · rw [hdeclare, hdeclare']
      rfl
    · rw [hdeclare]
      exact .refl m
    · rw [hdeclare]
      intro b hb
      cases hb
  | ok declared =>
    rw [hs] at hdeclare hdeclare'
    have hgrown : m.Grown { m with scopes := declared.2 :: rest } := by
      rw [Machine.Grown, hscopes]
      exact (Chain.Changed.here (.array a size declared.1 hs)).grown
    refine ⟨?_, ?_, ?_⟩
    · rw [hdeclare, hdeclare']
      rfl
    · rw [hdeclare]
      exact hgrown
    · rw [hdeclare]
      intro _ _
      exact hm.cons hgrown ⟨declared.2, rfl, Scope.has_declareArray hs⟩

theorem varDecl_ignores {d : VarDecl} (h : ∀ u ∈ Expr.usesOf d.init, u.Clear calls locals B) :
    (varDecl calls d).Ignores locals (k + 1) B (.var d.name :: B) := by
  unfold varDecl
  dsimp only
  split
  case' h_1 e he =>
    rw [he] at h
    refine (e.eval_ignores h).bind fun _ => ?_
  all_goals
    refine (ignores_pure _).bind fun v => ?_
    split
    · refine Ignores.bind ?_ fun _ => ignores_declare _ _ _
      exact ignores_modify (fun _ => rfl) fun _ => rfl
    · exact ignores_declare _ _ _

theorem pointerDecl_ignores {d : PointerDecl}
    (h : ∀ u ∈ Expr.usesOf d.init, u.Clear calls locals B) :
    (pointerDecl calls d).Ignores locals (k + 1) B (.var d.name :: B) := by
  unfold pointerDecl
  dsimp only
  split
  case' h_1 e he =>
    rw [he] at h
    refine (e.eval_ignores h).bind fun _ => ?_
  all_goals exact (ignores_pure _).bind fun _ => ignores_declare _ _ _

theorem fill_ignores (ha : (Use.array a).Clear calls locals B) {es : List Expr}
    (h : ∀ u ∈ Expr.usesAll es, u.Clear calls locals B) :
    ∀ i, (fill calls a i es).Ignores locals k B B := by
  induction es with
  | nil => exact fun _ => ignores_pure _
  | cons e es ih =>
    rw [Expr.usesAll, List.forall_mem_append] at h
    intro i
    exact (e.eval_ignores h.1).bind fun v =>
      (ignores_setElement ha i v.value).bind fun _ => ih h.2 (i + 1)

/-- The initial values of an array come behind its declaration. -/
theorem arrayDecl_ignores {d : ArrayDecl}
    (h : ∀ u ∈ Expr.usesAll (d.init.getD []), u.Clear calls locals (.array d.name :: B)) :
    (arrayDecl calls d).Ignores locals (k + 1) B (.array d.name :: B) := by
  have hself : (Use.array d.name).Clear calls locals (.array d.name :: B) :=
    .inl (by simp [Use.bound])
  unfold arrayDecl
  split
  · refine (ignores_declareArray _ _).bind fun _ => ?_
    dsimp only
    split
    · exact ignores_fail_bind _ _
    · exact fill_ignores hself h 0
  · exact ignores_fail _

theorem decl_ignores {d : Decl} (h : ∀ u ∈ d.free B, u.Passes calls locals) :
    (Run.decl calls d).Ignores locals (k + 1) B (d.binding :: B) := by
  cases d with
  | var d => exact varDecl_ignores (Use.clear_of_unbound h)
  | array d => exact arrayDecl_ignores (Use.clear_of_unbound h)
  | pointer d => exact pointerDecl_ignores (Use.clear_of_unbound h)

theorem assign_ignores {e : Expr} (h : ∀ u ∈ Use.var x :: e.uses, u.Clear calls locals B) :
    (Run.assign calls x e).Ignores locals k B B := by
  obtain ⟨hx, he⟩ := List.forall_mem_cons.mp h
  refine (e.eval_ignores he).bind fun v => (ignores_typeOf hx).bind fun t => ?_
  refine ignores_get_bind (fun m => ?_) fun m => rfl
  split
  · next r _ =>
    split
    · exact ignores_fail_bind _ _
    · refine Ignores.bind ?_ fun _ => ignores_assignTo hx _ _
      exact ignores_modify (fun _ => rfl) fun _ => rfl
  · exact ignores_assignTo hx _ _

theorem bump_ignores (h : (Use.var x).Clear calls locals B) (amount : Int) :
    (bump x amount).Ignores locals k B B :=
  (ignores_get h).bind fun _ => ignores_assignTo h _ _

theorem truth_ignores {e : Expr} (h : ∀ u ∈ e.uses, u.Clear calls locals B) :
    (truth calls e).Ignores locals k B B :=
  (e.eval_ignores h).bind fun _ => ignores_pure _

theorem forInit_ignores {i : ForInit} (h : ∀ u ∈ i.uses, u.Clear calls locals B) :
    (forInit calls i).Ignores locals (k + 1) B (i.bindings ++ B) := by
  cases i with
  | declare d => exact varDecl_ignores h
  | assign x e => exact assign_ignores h

theorem forStep_ignores {st : ForStep} (h : ∀ u ∈ st.uses, u.Clear calls locals B) :
    (forStep calls st).Ignores locals k B B := by
  cases st with
  | increment x _ => exact bump_ignores (List.forall_mem_singleton.mp h) 1
  | decrement x _ => exact bump_ignores (List.forall_mem_singleton.mp h) (-1)
  | assign x e => exact assign_ignores h

end Run

/-! ### Statements -/

namespace Stmt

theorem execAll_ignores {fuel : Nat} {ss : List Stmt}
    (ih : ∀ s ∈ ss, ∀ k B, (∀ u ∈ s.free B, u.Passes calls locals) →
      (s.exec calls fuel).Ignores locals (k + 1) B (s.bindings ++ B))
    (h : ∀ u ∈ freeAll B ss, u.Passes calls locals) :
    (execAll calls fuel ss).Ignores locals (k + 1) B B := by
  induction ss generalizing B with
  | nil =>
    rw [execAll]
    exact ignores_pure _
  | cons s ss ihss =>
    obtain ⟨hs, hss⟩ := List.forall_mem_cons.mp ih
    rw [freeAll, List.forall_mem_append] at h
    rw [execAll]
    exact ((hs k B h.1).bind fun _ => ihss hss h.2).forget

theorem forLoop_ignores {fuel : Nat} {init : Option ForInit} {c : Option Expr}
    {step : Option ForStep} {s : Stmt} (ih : ∀ k B, (∀ u ∈ s.free B, u.Passes calls locals) →
      (s.exec calls fuel).Ignores locals (k + 1) B (s.bindings ++ B))
    (h : ∀ u ∈ (forLoop init c step s).free B, u.Passes calls locals) :
    ((forLoop init c step s).exec calls fuel).Ignores locals k B B := by
  obtain ⟨hinit, hrest⟩ := List.forall_mem_append.mp h
  obtain ⟨hhead, hs⟩ := List.forall_mem_append.mp hrest
  obtain ⟨hc, hstep⟩ := List.forall_mem_append.mp (Use.clear_of_unbound hhead)
  rw [exec]
  refine @Ignores.block _ locals k B (headBindings init ++ B) _ ?_
  cases init
  case' some i => refine Ignores.bind (forInit_ignores (Use.clear_of_unbound hinit)) fun _ => ?_
  -- one round: the condition if there is one, the body, the step if there is one
  all_goals
    dsimp only
    refine Ignores.iterate ?_ fuel
    cases c
    case' some c => refine (truth_ignores hc).bind fun holds => ?_
    case' none => refine (ignores_pure true).bind fun holds => ?_
    all_goals
      cases holds with
      | false => exact ignores_pure _
      | true =>
        refine (ih k _ hs).attempt.bind fun goesOn => ?_
        cases goesOn with
        | false => exact ignores_pure _
        | true =>
          cases step with
          | none => exact ignores_pure _
          | some st => exact (forStep_ignores hstep).bind fun _ => ignores_pure _

theorem exec_ignores (fuel : Nat) (s : Stmt) : ∀ k B, (∀ u ∈ s.free B, u.Passes calls locals) →
    (s.exec calls fuel).Ignores locals (k + 1) B (s.bindings ++ B) := by
  induction s with
  | decl d =>
    intro k B h
    rw [exec]
    exact decl_ignores h
  | assign x e =>
    intro k B h
    rw [exec]
    exact assign_ignores (Use.clear_of_unbound h)
  | assignIndex a i e =>
    intro k B h
    obtain ⟨ha, hrest⟩ := List.forall_mem_cons.mp (Use.clear_of_unbound h)
    obtain ⟨hi, he⟩ := List.forall_mem_append.mp hrest
    rw [exec]
    exact (i.eval_ignores hi).bind fun v => (e.eval_ignores he).bind fun w =>
      ignores_setElement ha v.value w.value
  | assignDeref p e =>
    intro k B h
    exact (h .pointer List.mem_cons_self).elim
  | ret e =>
    intro k B h
    cases e with
    | none =>
      rw [exec]
      exact ignores_throw _
    | some e =>
      rw [exec]
      exact (e.eval_ignores (Use.clear_of_unbound h)).bind fun _ => ignores_throw _
  | ifThen c s ih =>
    intro k B h
    obtain ⟨hc, hs⟩ := List.forall_mem_append.mp h
    rw [exec]
    refine (truth_ignores (Use.clear_of_unbound hc)).bind fun holds => ?_
    cases holds with
    | true => exact (ih k B hs).forget
    | false => exact ignores_pure _
  | ifElse c s t ihs iht =>
    intro k B h
    obtain ⟨hc, hrest⟩ := List.forall_mem_append.mp h
    obtain ⟨hs, ht⟩ := List.forall_mem_append.mp hrest
    rw [exec]
    refine (truth_ignores (Use.clear_of_unbound hc)).bind fun holds => ?_
    cases holds with
    | true => exact (ihs k B hs).forget
    | false => exact (iht k B ht).forget
  | whileLoop c s ih =>
    intro k B h
    obtain ⟨hc, hs⟩ := List.forall_mem_append.mp h
    rw [exec]
    refine Ignores.iterate ?_ fuel
    refine (truth_ignores (Use.clear_of_unbound hc)).bind fun holds => ?_
    cases holds with
    | true => exact (ih k B hs).attempt
    | false => exact ignores_pure _
  | doWhile s c ih =>
    intro k B h
    obtain ⟨hc, hs⟩ := List.forall_mem_append.mp h
    rw [exec]
    refine Ignores.iterate ?_ fuel
    refine (ih k B hs).attempt.bind fun goesOn => ?_
    cases goesOn with
    | true => exact truth_ignores (Use.clear_of_unbound hc)
    | false => exact ignores_pure _
  | forLoop init c step s ih =>
    intro k B h
    exact forLoop_ignores ih h
  | block ss ih =>
    intro k B h
    rw [exec]
    exact (execAll_ignores ih h).block
  | call e =>
    intro k B h
    rw [exec]
    unfold callStatement
    split
    · exact (Expr.eval_ignores _ (Use.clear_of_unbound h)).bind fun _ => ignores_pure _
    · exact ignores_fail _
  | increment x _ =>
    intro k B h
    rw [exec]
    exact bump_ignores (List.forall_mem_singleton.mp (Use.clear_of_unbound h)) 1
  | decrement x _ =>
    intro k B h
    rw [exec]
    exact bump_ignores (List.forall_mem_singleton.mp (Use.clear_of_unbound h)) (-1)
  | breakLoop | continueLoop =>
    intro k B h
    rw [exec]
    exact ignores_throw _
  | asm text =>
    intro k B h
    rw [exec]
    exact ignores_modify (fun _ => rfl) fun _ => rfl
  | hole =>
    intro k B h
    rw [exec]
    exact ignores_fail _

end Stmt

/-! ### Functions -/

/-- Declaring parameters takes none of the names away. -/
theorem Scope.has_declareAll {u : Use} (bindings : List (String × Int)) (s : Scope IntType)
    (h : s.Has u) : (bindings.foldl (fun s (x, v) => s.declare x v .uint32) s).Has u := by
  induction bindings generalizing s with
  | nil => exact h
  | cons b bindings ih => exact ih _ ((Scope.Step.declare b.1 b.2 .uint32).has h)

theorem Func.has_frame (f : Func) {args : List Int} (hargs : args.length = f.params.length) :
    ∀ u ∈ f.bindings, (f.frame args).Has u := by
  unfold bindings frame
  generalize ({} : Scope IntType) = s
  generalize f.params = params at hargs ⊢
  induction params generalizing args s with
  | nil => exact List.forall_mem_nil _
  | cons x params ih =>
    cases args with
    | nil => cases hargs
    | cons v args =>
      refine List.forall_mem_cons.mpr ⟨?_, fun u hu => ih _ (Nat.succ.inj hargs) u hu⟩
      exact Scope.has_declareAll (params.zip args) (s.declare x v .uint32)
        (s.has_declare x v .uint32)

theorem Func.run_ignores {f : Func} (h : ∀ u ∈ f.free, u.Passes calls locals) (fuel : Nat)
    (args : List Int) : (f.run calls fuel args).Ignores locals k [] [] := by
  unfold run
  dsimp only
  split
  · exact ignores_fail_bind _ _
  · next hargs =>
    have hbody : ((Stmt.block f.body).exec calls fuel).Ignores locals (k + 1) (f.bindings ++ [])
        (f.bindings ++ []) := by
      rw [List.append_nil]
      exact Stmt.exec_ignores fuel (.block f.body) k f.bindings h
    exact Ignores.inside (f.has_frame (Decidable.not_not.mp hargs)) hbody.answer

/-- Functions that a call can reach, in a program without pointers: the induction is on how deep
calls may nest. -/
theorem Program.calls_ignore {p : Program} (hp : ∀ g ∈ p.functions, Use.pointer ∉ g.free) {f : Func}
    (hlocals : ∀ g, p.Reaches f g → ∀ u ∈ g.free, ∀ s ∈ locals, s.Lacks u) (fuel : Nat) {g : Func}
    (hg : g ∈ p.functions) (hreach : p.Reaches f g) :
    ∀ u ∈ g.free, u.Passes (p.calls fuel) locals := by
  induction fuel generalizing g with
  | zero =>
    intro u hu
    cases u with
    | var x | array x | address x => exact hlocals g hreach _ hu
    | func name => exact fun h hh k args => ignores_throw _
    | pointer => exact hp g hg hu
  | succ fuel ih =>
    intro u hu
    cases u with
    | var x | array x | address x => exact hlocals g hreach _ hu
    | func name =>
      intro h hh k args
      have hfound : p.function? name = some h := by rwa [find?_calls] at hh
      have hmem := (mem_of_function? hfound).1
      exact Func.run_ignores (ih hmem (.call hreach hu hfound)) fuel args
    | pointer => exact hp g hg hu

end

/-- A function of a program without pointers runs in the same way under two callers whose local
scopes have none of the names that are free in it or in a function that it can call: it ends in the
same value or signal and leaves the same globals, registers and devices, and the local scopes of
either caller are as before. -/
theorem call_ignores_locals (p : Program) (hp : ∀ g ∈ p.functions, Use.pointer ∉ g.free) (f : Func)
    (hf : f ∈ p.functions) (fuel rounds : Nat) (args : List Int) (m : Machine)
    (globals : Scope IntType) (locals₁ locals₂ : Chain IntType)
    (h₁ : ∀ g, p.Reaches f g → ∀ u ∈ g.free, ∀ s ∈ locals₁, s.Lacks u)
    (h₂ : ∀ g, p.Reaches f g → ∀ u ∈ g.free, ∀ s ∈ locals₂, s.Lacks u) :
    ∃ (outcome : Except Signal Int) (m' : Machine) (globals' : Scope IntType),
      f.run (p.calls fuel) rounds args { m with scopes := locals₁ ++ [globals] } =
        (outcome, { m' with scopes := locals₁ ++ [globals'] }) ∧
      f.run (p.calls fuel) rounds args { m with scopes := locals₂ ++ [globals] } =
        (outcome, { m' with scopes := locals₂ ++ [globals'] }) := by
  have hready : ({ m with scopes := [globals] } : Machine).Ready 0 [] :=
    ⟨Nat.zero_le _, List.forall_mem_nil _⟩
  have hrun (locals : Chain IntType)
      (h : ∀ g, p.Reaches f g → ∀ u ∈ g.free, ∀ s ∈ locals, s.Lacks u) :
      (f.run (p.calls fuel) rounds args).Ignored locals 0 [] { m with scopes := [globals] } :=
    f.run_ignores (p.calls_ignore hp h fuel hf .self) rounds args _ hready
  have hsame₁ := (hrun locals₁ h₁).same
  have hsame₂ := (hrun locals₂ h₂).same
  have hgrown := (hrun locals₁ h₁).grown
  rcases hbase : f.run (p.calls fuel) rounds args { m with scopes := [globals] } with ⟨outcome, m'⟩
  rw [hbase] at hsame₁ hsame₂ hgrown
  obtain ⟨globals', hglobals⟩ := List.length_eq_one_iff.mp hgrown.1
  refine ⟨outcome, m', globals', ?_, ?_⟩
  · rw [← hglobals]
    exact hsame₁
  · rw [← hglobals]
    exact hsame₂

/-- A function that counts down its parameter and adds to a global, with a variable of its own. -/
def countDown : Func where
  name := "count"
  params := ["n"]
  body :=
    [.decl (.var { name := "x", init := some (.name "n") }),
      .assign "total" (.binary .add (.name "total") (.name "x")),
      .ifThen (.name "x") (.ret (some (.call "count" [.binary .sub (.name "x") (.literal 1)]))),
      .ret (some (.name "total"))]

theorem countDown_free :
    countDown.free = [.var "total", .var "total", .func "count", .var "total"] := by
  decide +kernel

/-- A caller with variables of the names that the function declares. -/
def sameNames : Scope IntType := (({} : Scope IntType).declare "x" 7 .uint32).declare "n" 9 .int32

def totalOnly : Scope IntType := ({} : Scope IntType).declare "total" 10 .uint32

theorem countDown_ignores_locals : (∀ g, Program.Reaches ⟨[countDown], []⟩ countDown g →
      ∀ u ∈ g.free, ∀ s ∈ [sameNames], s.Lacks u) ∧
    ∃ (outcome : Except Signal Int) (m' : Machine) (globals' : Scope IntType),
      countDown.run (Program.calls ⟨[countDown], []⟩ 3) 3 [2]
      { scopes := [sameNames] ++ [totalOnly] } =
        (outcome, { m' with scopes := [sameNames] ++ [globals'] }) ∧
      countDown.run (Program.calls ⟨[countDown], []⟩ 3) 3 [2] { scopes := [] ++ [totalOnly] } =
        (outcome, { m' with scopes := [] ++ [globals'] }) := by
  have hreach (g : Func) (h : Program.Reaches ⟨[countDown], []⟩ countDown g) : g = countDown := by
    induction h with
    | self => rfl
    | call _ hname hfound ih =>
      subst ih
      rw [countDown_free] at hname
      simp only [List.mem_cons, reduceCtorEq, Use.func.injEq, List.not_mem_nil, or_false,
        false_or] at hname
      subst hname
      exact (Option.some.inj hfound).symm
  have hlacks (g : Func) (h : Program.Reaches ⟨[countDown], []⟩ countDown g) :
      ∀ u ∈ g.free, ∀ s ∈ [sameNames], s.Lacks u := by
    rw [hreach g h, countDown_free]
    intro u hu s hs
    rw [List.mem_singleton.mp hs]
    simp only [List.mem_cons, List.not_mem_nil, or_false] at hu
    rcases hu with rfl | rfl | rfl | rfl
    · exact ⟨by decide, by decide⟩
    · exact ⟨by decide, by decide⟩
    · trivial
    · exact ⟨by decide, by decide⟩
  refine ⟨hlacks, ?_⟩
  refine call_ignores_locals ⟨[countDown], []⟩ ?_ countDown List.mem_cons_self 3 3 [2] {} totalOnly
    [sameNames] [] hlacks ?_
  · rw [List.forall_mem_singleton, countDown_free]
    decide
  · exact fun _ _ _ _ => List.forall_mem_nil _

/-- A function that changes and answers a variable it does not declare. -/
def takesX : Func where
  name := "take"
  params := []
  body := [.assign "x" (.binary .add (.name "x") (.literal 1)), .ret (some (.name "x"))]

/-- The variable is that of the caller if the caller has one, which it then changes, and without one
the same call fails. -/
theorem takesX_sees_caller : (∀ g ∈ [takesX], Use.pointer ∉ g.free) ∧
    (takesX.run (Program.calls ⟨[takesX], []⟩ 1) 1 []
      { scopes := [({} : Scope IntType).declare "x" 5 .uint32, {}] }).1 = .ok 6 ∧
    ((takesX.run (Program.calls ⟨[takesX], []⟩ 1) 1 []
      { scopes := [({} : Scope IntType).declare "x" 5 .uint32, {}] }).2.scopes.get "x") = .ok 6 ∧
    (takesX.run (Program.calls ⟨[takesX], []⟩ 1) 1 [] { scopes := [{}] }).1 =
      .error (.failure (.scope (.undefinedVariable "x"))) := by
  refine ⟨by decide +kernel, ?_, ?_, ?_⟩ <;> rfl

end WordC
