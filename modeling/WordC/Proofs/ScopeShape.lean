import WordC.Proofs.Ranges

/-!
# What is declared stays where it was declared

The shape of a scope is what its declarations have made of it: the names of its variables, the type
of each, the names of its arrays and the length of each. Values are not part of it. A statement
changes the shape of no scope but the one it stands in, and a block, a loop with a head, a call and
an expression change the shape of none. This holds however they end.

The one delicate case is an assignment, which finds the variable by its value and the type by its
tag, each on a way of its own through the scopes. In sound scopes both ways end in the same scope,
so the tag that is written is the one that was there.
-/

namespace WordC

open Run Step

/-! ### Shapes -/

@[ext]
structure Shape where
  declared : String → Bool
  type? : String → Option IntType
  length? : String → Option Nat

def Scope.shape (s : Scope IntType) : Shape where
  declared x := s.vars.contains x
  type? x := s.types.get? x
  length? a := (s.arrays.get? a).map Array.size

/-- The shapes of the open scopes, the innermost first. -/
def Chain.shapes (c : Chain IntType) : List Shape := c.map Scope.shape

theorem Chain.shapes_cons (s : Scope IntType) (c : Chain IntType) :
    shapes (s :: c) = s.shape :: c.shapes := rfl

theorem Chain.shapes_tail (c : Chain IntType) : Chain.shapes c.tail = c.shapes.tail := List.map_tail

/-! ### Changes that keep the shape of a scope -/

namespace Scope

variable {s : Scope IntType} {x a : String}

/-- Setting a variable that is there declares no name. -/
theorem declared_set (hx : s.vars.contains x = true) (v : Int) :
    (fun y => (s.vars.set x v).contains y) = fun y => s.vars.contains y :=
  funext fun y => isSome_get?_set hx v y

theorem shape_setVar (hx : s.vars.contains x = true) (v : Int) : (s.setVar x v).shape = s.shape :=
  Shape.ext (declared_set hx (Word.wrap v)) rfl rfl

/-- Declaring a variable again with the type that it has. -/
theorem shape_declare {t : IntType} (hx : s.vars.contains x = true) (ht : s.types.get? x = some t)
    (v : Int) : (s.declare x v t).shape = s.shape := by
  refine Shape.ext (declared_set hx (Word.wrap v)) ?_ rfl
  funext y
  show (s.types.set x t).get? y = s.types.get? y
  rw [Table.get?_set]
  by_cases hxy : x = y
  · rw [if_pos hxy, ← hxy, ht]
  · rw [if_neg hxy]

theorem shape_setElement {elements : Array Int} (ha : s.arrays.get? a = some elements)
    (i : Nat) (v : Int) : ({ s with
      arrays := s.arrays.set a (elements.setIfInBounds i v) } : Scope IntType).shape = s.shape := by
  refine Shape.ext rfl rfl ?_
  funext b
  show ((s.arrays.set a (elements.setIfInBounds i v)).get? b).map Array.size =
    (s.arrays.get? b).map Array.size
  rw [Table.get?_set]
  by_cases hab : a = b
  · rw [if_pos hab, ← hab, ha, Option.map_some, Option.map_some, Array.size_setIfInBounds]
  · rw [if_neg hab]

theorem shape_variableCell (s : Scope IntType) (x : String) :
    (s.variableCell x).2.shape = s.shape := by
  unfold variableCell
  split <;> rfl

end Scope

/-! ### Changes that keep the shapes of a chain -/

namespace Chain

variable {c c' : Chain IntType} {x a : String} {v : Int}

/-- The tag that a name has stands in the scope in which the name has its value. -/
theorem typeOf?_cons_of_contains {s : Scope IntType} (hs : s.Sound)
    (hx : s.vars.contains x = true) :
    ∃ t, s.types.get? x = some t ∧ typeOf? (s :: c) x = some t := by
  have htag : (s.types.get? x).isSome = true := (hs.tagged x).trans hx
  obtain ⟨t, ht⟩ := Option.isSome_iff_exists.mp htag
  exact ⟨t, ht, by rw [typeOf?, ht]⟩

theorem typeOf?_cons_of_not_contains {s : Scope IntType} (hs : s.Sound)
    (hx : ¬ s.vars.contains x = true) : typeOf? (s :: c) x = c.typeOf? x := by
  have htag : s.types.get? x = none := by
    rw [← Option.not_isSome_iff_eq_none, hs.tagged x]
    exact hx
  rw [typeOf?, htag]

theorem shapes_assign {t : Option IntType} (hc : c.Sound)
    (ht : t = none ∨ t = some ((c.typeOf? x).getD .uint32)) (h : c.assign x v t = .ok c') :
    c'.shapes = c.shapes := by
  induction c generalizing c' with
  | nil => contradiction
  | cons s rest ih =>
    obtain ⟨hs, hrest⟩ := List.forall_mem_cons.mp hc
    unfold assign at h
    by_cases hx : s.vars.contains x = true
    · rw [if_pos hx] at h
      obtain ⟨u, hu, htype⟩ := typeOf?_cons_of_contains (c := rest) hs hx
      rw [htype] at ht
      rcases ht with rfl | rfl
      · obtain rfl := Except.ok.inj h
        rw [shapes_cons, shapes_cons, Scope.shape_setVar hx]
      · obtain rfl := Except.ok.inj h
        rw [shapes_cons, shapes_cons, Option.getD_some, Scope.shape_declare hx hu]
    · rw [if_neg hx] at h
      rw [typeOf?_cons_of_not_contains hs hx] at ht
      obtain ⟨rest', hassign, rfl⟩ := bind_return_ok h
      rw [shapes_cons, shapes_cons, ih hrest ht hassign]

theorem Edited.shapes_eq (h : Edited c c') : c'.shapes = c.shapes := by
  refine h.map_eq fun s s' hedit => ?_
  cases hedit with
  | assign x v hx => exact Scope.shape_setVar hx v
  | element a elements i v ha => exact Scope.shape_setElement ha i _
  | cell x _ => exact Scope.shape_variableCell s x

theorem shapes_address {n : Int} (h : c.address x = .ok (n, c')) : c'.shapes = c.shapes := by
  rcases edited_address h with rfl | hedited
  · rfl
  · exact hedited.shapes_eq

end Chain

/-! ### Steps of a run -/

/-- A step from a sound machine keeps it sound and keeps the shapes of its scopes. -/
def KeepsShapes (m m' : Machine) : Prop := m.Sound → m'.Sound ∧ m'.scopes.shapes = m.scopes.shapes

/-- The same around the innermost scope only; the innermost scope is still there, whatever was
declared in it. -/
def KeepsOuterShapes (m m' : Machine) : Prop :=
  m.Sound → m'.Sound ∧ m'.scopes.length = m.scopes.length ∧
    m'.scopes.shapes.tail = m.scopes.shapes.tail

theorem KeepsShapes.trans {m₁ m₂ m₃ : Machine} (h₁ : KeepsShapes m₁ m₂) (h₂ : KeepsShapes m₂ m₃) :
    KeepsShapes m₁ m₃ := by
  intro hm
  obtain ⟨hm₂, hshapes₁⟩ := h₁ hm
  obtain ⟨hm₃, hshapes₂⟩ := h₂ hm₂
  exact ⟨hm₃, hshapes₂.trans hshapes₁⟩

theorem KeepsShapes.outer {m m' : Machine} (h : KeepsShapes m m') : KeepsOuterShapes m m' := by
  intro hm
  obtain ⟨hm', hshapes⟩ := h hm
  refine ⟨hm', ?_, congrArg List.tail hshapes⟩
  simpa [Chain.shapes] using congrArg List.length hshapes

theorem KeepsOuterShapes.trans {m₁ m₂ m₃ : Machine} (h₁ : KeepsOuterShapes m₁ m₂)
    (h₂ : KeepsOuterShapes m₂ m₃) : KeepsOuterShapes m₁ m₃ := by
  intro hm
  obtain ⟨hm₂, hlength₁, hshapes₁⟩ := h₁ hm
  obtain ⟨hm₃, hlength₂, hshapes₂⟩ := h₂ hm₂
  exact ⟨hm₃, hlength₂.trans hlength₁, hshapes₂.trans hshapes₁⟩

theorem keepsOuterShapes_declare (m : Machine) (x : String) (v : Int) (t : IntType) :
    KeepsOuterShapes m (Run.declare x v t m).2 := by
  intro hm
  refine ⟨hm.declare x v t, ?_⟩
  cases hscopes : m.scopes with
  | nil =>
    rw [declare_nil hscopes, hscopes]
    exact ⟨rfl, rfl⟩
  | cons s rest =>
    rw [declare_cons hscopes]
    exact ⟨rfl, rfl⟩

theorem keepsOuterShapes_declareArray (m : Machine) (a : String) (size : Nat) :
    KeepsOuterShapes m (Run.declareArray a size m).2 := by
  intro hm
  refine ⟨hm.declareArray a size, ?_⟩
  unfold Run.declareArray
  rw [changing_apply]
  cases hscopes : m.scopes with
  | nil => exact ⟨rfl, rfl⟩
  | cons s rest =>
    dsimp only
    cases s.declareArray a size with
    | error e =>
      show m.scopes.length = _ ∧ m.scopes.shapes.tail = _
      rw [hscopes]
      exact ⟨rfl, rfl⟩
    | ok declared => exact ⟨rfl, rfl⟩

theorem keepsOuterShapes_registers (m : Machine) (r : Fin 32) (v : Int)
    (names : Table (Fin 32)) : KeepsOuterShapes m { m with
      registers := m.registers.set r.val (Word.wrap v) r.isLt, registerNames := names } :=
  fun hm => ⟨hm.setRegister r v names, rfl, rfl⟩

/-- Keeping shapes is a relation of runs. -/
def shapesKept : RunRelation where
  expr := KeepsShapes
  stmt := KeepsOuterShapes
  expr_refl := fun _ h => ⟨h, rfl⟩
  expr_trans := KeepsShapes.trans
  stmt_trans := KeepsOuterShapes.trans
  stmt_of_expr := KeepsShapes.outer
  address := fun haddress h => ⟨soundKept.address haddress h, Chain.shapes_address haddress⟩
  devices := fun m d h => ⟨soundKept.devices m d h, rfl⟩
  declare := keepsOuterShapes_declare
  declareArray := keepsOuterShapes_declareArray
  registers := keepsOuterShapes_registers
  assign := fun ht hassign => KeepsShapes.outer fun h =>
    ⟨soundKept.assign ht hassign h, Chain.shapes_assign h.scopes ht hassign⟩
  setElement := fun hset => KeepsShapes.outer fun h =>
    ⟨soundKept.setElement hset h, (Chain.edited_setElement hset).shapes_eq⟩
  store := fun hstore => KeepsShapes.outer fun h =>
    ⟨soundKept.store hstore h, (h.scopes.edited_store hstore).shapes_eq⟩
  warned := fun m h => ⟨soundKept.warned m h, rfl, rfl⟩
  inside := by
    intro m m' s hs hstep h
    have hopened : ({ m with scopes := s :: m.scopes } : Machine).Sound :=
      h.withScopes (List.forall_mem_cons.mpr ⟨hs.sound, h.scopes⟩)
    obtain ⟨hm', -, hshapes⟩ := hstep hopened
    refine ⟨hm'.withScopes fun t ht => hm'.scopes t (List.mem_of_mem_tail ht), ?_⟩
    -- the scope that is closed was the innermost one, so what is left are the shapes around it
    exact (Chain.shapes_tail m'.scopes).trans hshapes

/-! ### Every state that a run passes through -/

/-- The states in which a run of a program can come to evaluate an expression or to carry out a
statement: the start, what globals, expressions and statements make of such a state, and such a
state with a scope opened or closed. -/
inductive Machine.Reached (p : Program) : Machine → Prop
  | start : Reached p {}
  | global {m : Machine} (fuel : Nat) (d : Decl) :
      Reached p m → Reached p (Run.global (p.calls fuel) d m).2
  | eval {m : Machine} (fuel : Nat) (e : Expr) : Reached p m → Reached p (e.eval (p.calls fuel) m).2
  | exec {m : Machine} (fuel rounds : Nat) (s : Stmt) :
      Reached p m → Reached p (s.exec (p.calls fuel) rounds m).2
  | opened {m : Machine} {s : Scope IntType} :
      s.Opened → Reached p m → Reached p { m with scopes := s :: m.scopes }
  | closed {m : Machine} : Reached p m → Reached p { m with scopes := m.scopes.tail }

theorem Machine.Reached.sound {p : Program} {m : Machine} (h : m.Reached p) : m.Sound := by
  induction h with
  | start => exact Machine.sound_initial
  | global fuel d _ ih => exact soundKept.global_stmt (soundKept.calls_careful p fuel) d _ ih
  | eval fuel e _ ih => exact soundKept.eval_expr (soundKept.calls_careful p fuel) e _ ih
  | exec fuel rounds s _ ih =>
    exact soundKept.exec_stmt (soundKept.calls_careful p fuel) rounds s _ ih
  | opened hs _ ih => exact ih.withScopes (List.forall_mem_cons.mpr ⟨hs.sound, ih.scopes⟩)
  | closed _ ih => exact ih.withScopes fun s hs => ih.scopes s (List.mem_of_mem_tail hs)

/-- Statements keep the shapes of the scopes around the one they stand in, and blocks, loops with a
head, calls and expressions keep the shapes of all scopes, whether they end in a value or in a
signal. -/
theorem declarations_stay_inside (p : Program) (m : Machine) (h : m.Reached p) (fuel rounds : Nat) :
    (∀ s : Stmt, (s.exec (p.calls fuel) rounds m).2.scopes.length = m.scopes.length ∧
      (s.exec (p.calls fuel) rounds m).2.scopes.shapes.tail = m.scopes.shapes.tail) ∧
    (∀ ss, ((Stmt.block ss).exec (p.calls fuel) rounds m).2.scopes.shapes = m.scopes.shapes) ∧
    (∀ init c step s,
      ((Stmt.forLoop init c step s).exec (p.calls fuel) rounds m).2.scopes.shapes =
      m.scopes.shapes) ∧
    (∀ e, ((Stmt.call e).exec (p.calls fuel) rounds m).2.scopes.shapes = m.scopes.shapes) ∧
    ∀ e : Expr, (e.eval (p.calls fuel) m).2.scopes.shapes = m.scopes.shapes := by
  have hcalls := shapesKept.calls_careful p fuel
  have hexec (s : Stmt) := shapesKept.exec_stmt hcalls rounds s
  refine ⟨fun s => (hexec s m h.sound).2, ?_, ?_, ?_, ?_⟩
  · intro ss
    rw [Stmt.exec]
    exact (shapesKept.inside_expr Scope.opened_empty
      (shapesKept.execAll_stmt fun s _ => hexec s) m h.sound).2
  · intro init c step s
    exact (shapesKept.forLoop_expr hcalls init c step (hexec s) m h.sound).2
  · intro e
    rw [Stmt.exec]
    exact (shapesKept.callStatement_expr hcalls e m h.sound).2
  · intro e
    exact (shapesKept.eval_expr hcalls e m h.sound).2

/-- A signed global `x` of value five and a scope that was opened inside. -/
def besideSigned : Machine := { scopes := [{}, ({} : Scope IntType).declare "x" 5 .int32] }

/-- The block `{ uint32 x = 1; uint32 y[2]; }` leaves nothing behind, and the assignment `x = 7` in
the inner scope reaches the global, which is as signed as before. -/
theorem besideSigned_stays :
    besideSigned.Reached ⟨[], []⟩ ∧
    (let shadow : Stmt := .block [.decl (.var { name := "x", init := some (.literal 1) }),
        .decl (.array { name := "y", size := .literal 2 })]
      let inner := (shadow.exec (Program.calls ⟨[], []⟩ 0) 0 besideSigned).2
      let outer := ((Stmt.assign "x" (.literal 7)).exec (Program.calls ⟨[], []⟩ 0) 0 besideSigned).2
      inner.scopes.shapes = besideSigned.scopes.shapes ∧
      outer.scopes.shapes.tail = besideSigned.scopes.shapes.tail ∧
      outer.scopes.get "x" = .ok 7) := by
  have hreached : besideSigned.Reached ⟨[], []⟩ :=
    .opened Scope.opened_empty
      (.exec 0 0 (.decl (.var { name := "x", init := some (.literal 5), type := .int32 })) .start)
  have hstays := declarations_stay_inside ⟨[], []⟩ besideSigned hreached 0 0
  exact ⟨hreached, hstays.2.1 _, (hstays.1 _).2, rfl⟩

end WordC
