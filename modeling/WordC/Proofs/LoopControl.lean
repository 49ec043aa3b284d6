import WordC.Proofs.CompileSteps
import WordC.Proofs.Flow
import WordC.Proofs.Running

/-!
# Loop control stays inside loops

A `break` or `continue` that stands in no loop of its function is refused by the compiler, whose
list of open loops is empty where the body of a function starts. Running such a statement would send
its signal out of the function, since a call passes on every signal but a return. So a program that
is accepted never does that: each statement of a body ends without such a signal as soon as its
calls do, and calls do so by induction on how deep they nest.
-/

namespace WordC

open Asm Step

/-! ### Statements that keep their loop control -/

mutual

/-- Every `break` and `continue` of a statement stands inside a loop of the statement. -/
def Stmt.closed : Stmt → Bool
  | .breakLoop | .continueLoop => false
  | .ifThen _ s => s.closed
  | .ifElse _ s t => s.closed && t.closed
  | .block ss => Stmt.closedAll ss
  | _ => true

def Stmt.closedAll : List Stmt → Bool
  | [] => true
  | s :: ss => s.closed && Stmt.closedAll ss

end

theorem Stmt.closedAll_iff {ss : List Stmt} :
    Stmt.closedAll ss = true ↔ ∀ s ∈ ss, s.closed = true := by
  induction ss with
  | nil => simp [Stmt.closedAll]
  | cons s ss ih => simp [Stmt.closedAll, ih]

/-! ### What the compiler accepts -/

namespace Compile

variable {α β : Type} {P Q : Prop}

/-- A step that ends well where no loop is open leaves none open and tells that `P` holds. -/
def Shows (step : Compile α) (P : Prop) : Prop :=
  ∀ c c' a, c.loops = [] → step c = (.ok a, c') → c'.loops = [] ∧ P

theorem Keeps.shows {step : Compile α} (h : step.Keeps) : step.Shows True := by
  intro c c' a hc hrun
  have hkept := (h c).loops
  rw [hrun] at hkept
  exact ⟨hkept.trans hc, trivial⟩

variable {x : Compile α} {f : α → Compile β}

theorem shows_bind (hx : x.Shows P) (hf : ∀ a, (f a).Shows Q) :
    Shows (x >>= f) (P ∧ Q) := by
  intro c c' b hc h
  obtain ⟨a, c₁, hxc, hfc⟩ := bind_eq_ok h
  obtain ⟨hc₁, hP⟩ := hx c c₁ a hc hxc
  obtain ⟨hc', hQ⟩ := hf a c₁ c' b hc₁ hfc
  exact ⟨hc', hP, hQ⟩

theorem shows_modify {f : Compiler → Compiler} (h : ∀ c, (f c).loops = c.loops) :
    Shows (modify f) True :=
  fun c _ _ hc hrun => ⟨congrArg (fun r => r.2.loops) hrun ▸ (h c).trans hc, trivial⟩

theorem shows_skip (hx : x.Shows True) (hf : ∀ a, (f a).Shows P) :
    Shows (x >>= f) P :=
  fun c c' b hc h => (shows_bind hx hf c c' b hc h).imp_right And.right

theorem shows_next (hx : x.Keeps) (hf : ∀ a, (f a).Shows P) :
    Shows (x >>= f) P := shows_skip hx.shows hf

theorem shows_first (hx : x.Shows P) (hf : ∀ a, (f a).Keeps) :
    Shows (x >>= f) P :=
  fun c c' b hc h => (shows_bind hx (fun a => (hf a).shows) c c' b hc h).imp_right And.left

end Compile

namespace Stmt

open Compile

theorem shows_closedAll {ss : List Stmt} (h : ∀ s ∈ ss, s.compile.Shows (s.closed = true)) :
    (compileAll ss).Shows (∀ s ∈ ss, s.closed = true) := by
  induction ss with
  | nil =>
    rw [compileAll]
    exact fun c c' a hc hrun => ⟨((keeps_pure ()).shows c c' a hc hrun).1, List.forall_mem_nil _⟩
  | cons s ss ih =>
    obtain ⟨hs, hss⟩ := List.forall_mem_cons.mp h
    rw [compileAll]
    exact fun c c' a hc hrun =>
      (shows_bind hs (fun _ => ih hss) c c' a hc hrun).imp_right List.forall_mem_cons.mpr

/-- Most statements have no loop control of their own. -/
theorem shows_of_closed {s : Stmt} (h : s.closed = true) : s.compile.Shows (s.closed = true) :=
  fun c c' a hc hrun => (s.keeps_compile.shows c c' a hc hrun).imp_right fun _ => h

theorem shows_closed (s : Stmt) : s.compile.Shows (s.closed = true) := by
  induction s with
  | ifThen c s ih =>
    rw [compile, closed]
    refine shows_next c.keeps_compile fun r => shows_next (keeps_mint _) fun _ =>
      shows_next (keeps_mint _) fun done => ?_
    refine shows_next keeps_temp fun z => shows_next (keeps_emit _) fun _ =>
      shows_next (keeps_jumpIfZero _ _) fun _ => ?_
    exact shows_first ih fun _ => keeps_place done
  | ifElse c s t ihs iht =>
    rw [compile, closed, Bool.and_eq_true]
    refine shows_next c.keeps_compile fun r => shows_next (keeps_mint _) fun other =>
      shows_next (keeps_mint _) fun done => ?_
    refine shows_next keeps_temp fun z => shows_next (keeps_emit _) fun _ =>
      shows_next (keeps_jumpIfZero _ _) fun _ => ?_
    refine shows_bind ihs fun _ => shows_next (keeps_jump _) fun _ =>
      shows_next (keeps_place _) fun _ => ?_
    exact shows_first iht fun _ => keeps_place done
  | block ss ih =>
    rw [compile, closed, closedAll_iff]
    exact shows_closedAll ih
  | breakLoop | continueLoop =>
    -- outside of loops there is nowhere to jump to
    rw [compile]
    intro c c' a hc hrun
    rw [bind_ok (get_apply c), hc] at hrun
    cases congrArg Prod.fst hrun
  | _ => exact shows_of_closed rfl

end Stmt

open Compile in
theorem Func.shows_closed (f : Func) : f.compile.Shows (∀ s ∈ f.body, s.closed = true) := by
  have hlines : f.lines.Shows (∀ s ∈ f.body, s.closed = true) := by
    refine shows_next (keeps_line _) fun _ => shows_next keeps_get fun c =>
      shows_next (keeps_place _) fun _ => ?_
    refine shows_next (keeps_line _) fun _ => shows_next keeps_temp fun _ => ?_
    refine shows_next (keeps_loadParams f.params 0) fun _ => ?_
    refine shows_next (keeps_places fun _ => ⟨rfl, rfl, rfl, rfl, rfl, rfl, rfl⟩) fun _ => ?_
    exact shows_first (Stmt.shows_closedAll fun s _ => s.shows_closed) fun _ => keeps_finish
  intro c c' a hc hrun
  obtain ⟨c₁, hbody, rfl⟩ := compile_eq_ok hrun
  exact hlines (c.enter f) c₁ a hc hbody

namespace Program

open Compile

variable {p : Program} {name : String} {f : Func}

theorem mem_of_function? (h : p.function? name = some f) :
    f ∈ p.functions ∧ f.name = name := by
  have hfold := List.foldlRecOn (motive := fun found => ∀ g, found = some g →
    g ∈ p.functions ∧ g.name = name) p.functions
    (fun found f => if f.name == name then some f else found) (b := none) (fun _ h => nomatch h)
  refine hfold (fun found hfound f hf g hg => ?_) f h
  split at hg
  case isTrue hname => exact Option.some.inj hg ▸ ⟨hf, beq_iff_eq.mp hname⟩
  case isFalse => exact hfound g hg

/-- The function of a name is compiled: it is the main function or one of the others. -/
theorem main_or_other (h : p.function? name = some f) :
    p.mainFunction? = some f ∨ f ∈ p.otherFunctions := by
  obtain ⟨hf, rfl⟩ := mem_of_function? h
  by_cases hmain : f.name = "main"
  · exact .inl (by rwa [hmain] at h)
  · exact .inr (by simp [otherFunctions, hf, hmain])

theorem shows_functionAll (fs : List Func) :
    (functionAll fs).Shows (∀ f ∈ fs, ∀ s ∈ f.body, s.closed = true) := by
  induction fs with
  | nil =>
    exact fun c c' a hc hrun => ⟨((keeps_pure ()).shows c c' a hc hrun).1, List.forall_mem_nil _⟩
  | cons f fs ih =>
    exact fun c c' a hc hrun =>
      (shows_bind f.shows_closed (fun _ => ih) c c' a hc hrun).imp_right List.forall_mem_cons.mpr

theorem shows_mainLines (main : Option Func) :
    (mainLines main).Shows (∀ f, main = some f → ∀ s ∈ f.body, s.closed = true) := by
  cases main with
  | none => exact fun c c' a hc hrun => ⟨((keeps_pure ()).shows c c' a hc hrun).1, nofun⟩
  | some f =>
    have hf : (mainLines (some f)).Shows (∀ s ∈ f.body, s.closed = true) :=
      shows_next (keeps_line _) fun _ => shows_next (keeps_line _) fun _ => f.shows_closed
    exact fun c c' a hc hrun => (hf c c' a hc hrun).imp_right fun h g hg => Option.some.inj hg ▸ h

theorem shows_compile (p : Program) (includes : List String) : (p.compile includes).Shows
    ((∀ f, p.mainFunction? = some f → ∀ s ∈ f.body, s.closed = true) ∧
      ∀ f ∈ p.otherFunctions, ∀ s ∈ f.body, s.closed = true) := by
  rw [compile_eq]
  refine shows_skip (shows_modify fun _ => rfl) fun _ =>
    shows_next (keeps_header includes) fun _ => ?_
  refine shows_skip (shows_modify fun _ => rfl) fun _ =>
    shows_next (keeps_globalAll p.globals) fun _ => ?_
  refine shows_bind (shows_mainLines p.mainFunction?) fun _ => ?_
  have hdata : Shows (modify joinData) True := shows_modify fun c => by
    unfold joinData
    split <;> rfl
  exact fun c c' a hc hrun =>
    (shows_bind (shows_functionAll p.otherFunctions)
      (fun _ => hdata) c c' a hc hrun).imp_right And.left

/-- Every function that can be called keeps its loop control if the program is accepted. -/
theorem closed_of_listing {includes : List String} (h : (p.listing includes).isOk = true)
    (hf : p.function? name = some f) : ∀ s ∈ f.body, s.closed = true := by
  unfold listing at h
  rcases hrun : (ExceptT.run (p.compile includes)).run {} with ⟨e | _, c⟩
  · rw [hrun] at h
    exact nomatch h
  · obtain ⟨hmain, hothers⟩ := (p.shows_compile includes {} c () rfl hrun).2
    exact (main_or_other hf).elim (hmain f) (hothers f)

end Program

/-! ### Runs that keep their loop control -/

/-- Whether a signal looks for a loop. -/
def Signal.wantsLoop : Signal → Bool
  | breakLoop | continueLoop => true
  | _ => false

namespace Control

variable {σ α β : Type}

/-- A step sends no signal that looks for a loop. -/
def Contained (step : Control σ α) : Prop := ∀ m s, (step m).1 = .error s → s.wantsLoop = false

theorem contained_bind {x : Control σ α} {f : α → Control σ β} (hx : x.Contained)
    (hf : ∀ a, (f a).Contained) : Contained (x >>= f) := by
  intro m s hs
  have hm := hx m s
  rw [bind_apply] at hs
  rcases hxm : x m with ⟨e | a, m'⟩
  · rw [hxm] at hm hs
    have he : e = s := Except.error.inj hs
    exact hm (congrArg Except.error he)
  · rw [hxm] at hs
    exact hf a m' s hs

theorem contained_pure (a : α) : Contained (pure a : Control σ α) :=
  fun _ s h => nomatch (show Except.ok a = .error s from h)

theorem contained_throw {s : Signal} (h : s.wantsLoop = false) :
    Contained (throw s : Control σ α) :=
  fun _ _ hs => Except.error.inj hs ▸ h

/-- Taking a signal for an answer leaves none that looks for a loop. -/
theorem contained_attempt (body : Control σ Unit) : (attempt body).Contained := by
  intro m s h
  unfold attempt at h
  rcases hbody : body m with ⟨signal | _, m'⟩
  · rw [hbody] at h
    cases signal with
    | breakLoop | continueLoop => exact nomatch h
    | failure e | returned v | outOfFuel => exact Except.error.inj h ▸ rfl
  · rw [hbody] at h
    exact nomatch h

theorem contained_iterate {round : Control σ Bool} (h : round.Contained) :
    ∀ fuel, (iterate round fuel).Contained := by
  intro fuel
  induction fuel with
  | zero => exact contained_throw rfl
  | succ fuel ih =>
    refine contained_bind h fun goesOn => ?_
    cases goesOn with
    | true => exact ih
    | false => exact contained_pure _

end Control

open Control

/-- Actions that send no signal that looks for a loop. -/
structure Actions.Contained {σ : Type} (A : Actions σ) : Prop where
  act : ∀ s, s.isLeaf = true → (A.act s).Contained
  test : ∀ c, (A.test c).Contained
  inside : ∀ body, body.Contained → (A.inside body).Contained

namespace Actions.Contained

variable {σ : Type} {A : Actions σ}

theorem actIf (h : A.Contained) {s : Option Stmt} (hs : ∀ t, s = some t → t.isLeaf = true) :
    (A.actIf s).Contained := by
  cases s with
  | none => exact contained_pure _
  | some s => exact h.act s (hs s rfl)

theorem testIf (h : A.Contained) (c : Option Expr) : (A.testIf c).Contained := by
  cases c with
  | none => exact contained_pure _
  | some c => exact h.test c

theorem forInit (h : A.Contained) (init : Option ForInit) :
    (A.actIf (init.map ForInit.toStmt)).Contained := by
  refine h.actIf fun t ht => ?_
  obtain ⟨i, -, rfl⟩ := Option.map_eq_some_iff.mp ht
  cases i <;> rfl

theorem forStep (h : A.Contained) (step : Option ForStep) :
    (A.actIf (step.map ForStep.toStmt)).Contained := by
  refine h.actIf fun t ht => ?_
  obtain ⟨st, -, rfl⟩ := Option.map_eq_some_iff.mp ht
  cases st <;> rfl

theorem flowAll (fuel : Nat) {ss : List Stmt} (h : ∀ s ∈ ss, (s.flow A fuel).Contained) :
    (Stmt.flowAll A fuel ss).Contained := by
  induction ss with
  | nil => exact contained_pure _
  | cons s ss ih =>
    obtain ⟨hs, hss⟩ := List.forall_mem_cons.mp h
    exact contained_bind hs fun _ => ih hss

/-- A loop takes whatever its body signals. -/
theorem flow (h : A.Contained) (fuel : Nat) (s : Stmt) (hs : s.closed = true) :
    (s.flow A fuel).Contained := by
  induction s with
  | ifThen c s ih =>
    refine contained_bind (h.test c) fun holds => ?_
    cases holds with
    | true => exact ih hs
    | false => exact contained_pure _
  | ifElse c s t ihs iht =>
    rw [Stmt.closed, Bool.and_eq_true] at hs
    refine contained_bind (h.test c) fun holds => ?_
    cases holds with
    | true => exact ihs hs.1
    | false => exact iht hs.2
  | whileLoop c s ih =>
    refine contained_iterate (contained_bind (h.test c) fun holds => ?_) fuel
    cases holds with
    | true => exact contained_attempt _
    | false => exact contained_pure _
  | doWhile s c ih =>
    refine contained_iterate (contained_bind (contained_attempt _) fun goesOn => ?_) fuel
    cases goesOn with
    | true => exact h.test c
    | false => exact contained_pure _
  | forLoop init c step s ih =>
    refine h.inside _ (contained_bind (h.forInit init) fun _ => ?_)
    refine contained_iterate (contained_bind (h.testIf c) fun holds => ?_) fuel
    cases holds with
    | true =>
      refine contained_bind (contained_attempt _) fun goesOn => ?_
      cases goesOn with
      | true => exact contained_bind (h.forStep step) fun _ => contained_pure _
      | false => exact contained_pure _
    | false => exact contained_pure _
  | block ss ih =>
    rw [Stmt.closed, Stmt.closedAll_iff] at hs
    exact h.inside _ (flowAll fuel fun s hmem => ih s hmem (hs s hmem))
  | breakLoop | continueLoop => exact nomatch hs
  | decl | assign | assignIndex | assignDeref | ret | call | increment | decrement | asm | hole =>
    exact h.act _ rfl

end Actions.Contained

namespace Run

variable {α : Type}

abbrev Contained (step : Run α) : Prop := Control.Contained step

theorem contained_fail (e : RunError) : Contained (fail e : Run α) := contained_throw rfl

theorem contained_get : Contained get := fun m s h => nomatch (show Except.ok m = .error s from h)

theorem contained_modify (f : Machine → Machine) : Contained (modify f) :=
  fun _ s h => nomatch (show Except.ok () = .error s from h)

theorem contained_ofScope (x : Except ScopeError α) : (ofScope x).Contained := by
  cases x with
  | ok a => exact contained_pure a
  | error e => exact contained_fail (.scope e)

theorem contained_reading (f : Chain IntType → Except ScopeError α) : (reading f).Contained :=
  contained_bind contained_get fun m => contained_ofScope (f m.scopes)

theorem contained_changing (f : Chain IntType → Except ScopeError (Chain IntType)) :
    (changing f).Contained :=
  contained_bind contained_get fun m => contained_bind (contained_ofScope (f m.scopes)) fun _ =>
    contained_modify _

theorem contained_typeOf (x : String) : (typeOf x).Contained :=
  contained_bind contained_get fun _ => contained_pure _

theorem contained_typeAt (a : Int) : (typeAt a).Contained := by
  refine contained_bind contained_get fun m => ?_
  split
  · split
    · exact contained_typeOf _
    · exact contained_pure _
  · exact contained_pure _

theorem contained_readVariable (x : String) : (readVariable x).Contained := by
  have hrest (v : Int) : (do return ⟨Word.wrap v, ← typeOf x⟩ : Run Value).Contained :=
    contained_bind (contained_typeOf x) fun t => contained_pure _
  refine contained_bind contained_get fun m => ?_
  split
  · exact contained_bind (contained_pure _) hrest
  · exact contained_bind (contained_reading _) hrest

theorem contained_address (x : String) : (address x).Contained := by
  refine contained_bind contained_get fun m => contained_bind (contained_ofScope _) fun found => ?_
  exact contained_bind (contained_modify _) fun _ => contained_pure _

theorem contained_deviceCall (name : String) (args : List Int) :
    (deviceCall name args).Contained := by
  refine contained_bind contained_get fun m => ?_
  split
  · exact contained_bind (fun _ s h => nomatch (show Except.ok () = .error s from h)) fun _ =>
      contained_pure _
  · exact contained_fail _

theorem contained_inside (s : Scope IntType) {step : Run α} (h : step.Contained) :
    (inside s step).Contained :=
  fun m signal hs => h { m with scopes := s :: m.scopes } signal hs

end Run

namespace Calls

open Run

variable {calls : Calls}

/-- Calls of the functions that can be found keep their loop control. -/
def Contained (calls : Calls) : Prop :=
  ∀ name f, calls.find? name = some f → ∀ args, (calls.invoke f args).Contained

/-- A check in front of a step. -/
theorem contained_checked {α : Type} {c : Prop} [Decidable c] (e : RunError) {x : Run α}
    (hx : x.Contained) : (if c then fail e >>= fun _ : Unit => x else x).Contained := by
  split
  · exact contained_bind (contained_fail e) fun _ => hx
  · exact hx

theorem contained_bump (x : String) (amount : Int) : (Run.bump x amount).Contained :=
  contained_bind (contained_reading _) fun _ => contained_changing _

/-! ### Expressions -/

theorem Contained.evalAll {es : List Expr} (h : ∀ e ∈ es, (e.eval calls).Contained) :
    (Expr.evalAll calls es).Contained := by
  induction es with
  | nil =>
    rw [Expr.evalAll]
    exact contained_pure _
  | cons e es ih =>
    obtain ⟨he, hes⟩ := List.forall_mem_cons.mp h
    rw [Expr.evalAll]
    exact contained_bind he fun _ => contained_bind (ih hes) fun _ => contained_pure _

theorem Contained.addressOf {e : Expr} (hindex : ∀ a i, e = .index a i → (i.eval calls).Contained)
    (hderef : ∀ d, e = .deref d → (d.eval calls).Contained) :
    ((Expr.addressOf e).eval calls).Contained := by
  cases e with
  | name x =>
    rw [Expr.eval]
    exact contained_bind (contained_address x) fun _ => contained_pure _
  | index a i =>
    rw [Expr.eval]
    exact contained_bind (hindex a i rfl) fun _ => contained_bind (contained_address a) fun _ =>
      contained_pure _
  | deref d =>
    rw [Expr.eval]
    exact contained_bind (hderef d rfl) fun _ => contained_pure _
  | _ => exact contained_fail _

section Careful

variable (hcalls : calls.Contained)

include hcalls

theorem Contained.eval (e : Expr) : (e.eval calls).Contained := by
  induction e using Expr.address_induction with
  | literal n =>
    rw [Expr.eval]
    exact contained_pure _
  | name x =>
    rw [Expr.eval]
    exact contained_readVariable x
  | index a i ih =>
    rw [Expr.eval]
    exact contained_bind ih fun _ => contained_bind (contained_reading _) fun _ => contained_pure _
  | addressOf e hindex hderef => exact Contained.addressOf hindex hderef
  | deref e ih =>
    rw [Expr.eval]
    refine contained_bind ih fun p => contained_bind (contained_reading _) fun _ => ?_
    exact contained_bind (contained_typeAt p.value) fun _ => contained_pure _
  | unary op e ih =>
    rw [Expr.eval]
    exact contained_bind ih fun _ => contained_pure _
  | binary op l r ihl ihr =>
    rw [Expr.eval]
    refine contained_bind ihl fun _ => contained_bind ihr fun _ => ?_
    split
    · exact contained_pure _
    · exact contained_fail _
  | call f args ih =>
    have hargs := Contained.evalAll ih
    rw [Expr.eval]
    split
    · exact contained_bind hargs fun _ => contained_bind (contained_deviceCall f _) fun _ =>
        contained_pure _
    · split
      · exact contained_fail _
      · next g hg =>
          exact contained_bind hargs fun _ => contained_bind (hcalls f g hg _) fun _ =>
            contained_pure _
  | foreignUnary op e ih =>
    rw [Expr.eval]
    exact contained_bind ih fun _ => contained_fail _
  | foreignBinary op l r ihl ihr =>
    rw [Expr.eval]
    exact contained_bind ihl fun _ => contained_bind ihr fun _ => contained_fail _
  | hole =>
    rw [Expr.eval]
    exact contained_fail _

/-! ### Declarations and assignments -/

theorem Contained.varDecl (d : VarDecl) : (Run.varDecl calls d).Contained := by
  unfold Run.varDecl
  dsimp only
  split
  case' h_1 => refine contained_bind (hcalls.eval _) fun _ => ?_
  all_goals
    refine contained_bind (contained_pure _) fun v => ?_
    split
    · exact contained_bind (contained_modify _) fun _ => contained_modify _
    · exact contained_modify _

theorem Contained.pointerDecl (d : PointerDecl) : (Run.pointerDecl calls d).Contained := by
  unfold Run.pointerDecl
  dsimp only
  split
  case' h_1 => refine contained_bind (hcalls.eval _) fun _ => ?_
  all_goals exact contained_bind (contained_pure _) fun v => contained_modify _

theorem Contained.fill (a : String) (es : List Expr) :
    ∀ i, (Run.fill calls a i es).Contained := by
  induction es with
  | nil => exact fun _ => contained_pure _
  | cons e es ih =>
    exact fun i => contained_bind (hcalls.eval e) fun _ =>
      contained_bind (contained_changing _) fun _ => ih (i + 1)

theorem Contained.arrayDecl (d : ArrayDecl) : (Run.arrayDecl calls d).Contained := by
  unfold Run.arrayDecl
  split
  · exact contained_bind (contained_changing _) fun _ => contained_checked _ (hcalls.fill _ _ _)
  · exact contained_fail _

theorem Contained.decl (d : Decl) : (Run.decl calls d).Contained := by
  cases d with
  | var d => exact hcalls.varDecl d
  | array d => exact hcalls.arrayDecl d
  | pointer d => exact hcalls.pointerDecl d

theorem Contained.assign (x : String) (e : Expr) : (Run.assign calls x e).Contained := by
  refine contained_bind (hcalls.eval e) fun v => contained_bind (contained_typeOf x) fun t => ?_
  refine contained_bind contained_get fun m => ?_
  split
  · dsimp only
    exact contained_checked _ (contained_bind (contained_modify _) fun _ => contained_changing _)
  · exact contained_changing _

theorem Contained.truth (e : Expr) : (Run.truth calls e).Contained :=
  contained_bind (hcalls.eval e) fun _ => contained_pure _

theorem Contained.callStatement (e : Expr) : (Run.callStatement calls e).Contained := by
  unfold Run.callStatement
  split
  · exact contained_bind (hcalls.eval _) fun _ => contained_pure _
  · exact contained_fail _

/-! ### Statements -/

theorem Contained.leaf {s : Stmt} (hs : s.isLeaf = true) : (s.exec calls 0).Contained := by
  cases s with
  | decl d => exact hcalls.decl d
  | assign x e => exact hcalls.assign x e
  | assignIndex a i e =>
    exact contained_bind (hcalls.eval i) fun _ => contained_bind (hcalls.eval e) fun _ =>
      contained_changing _
  | assignDeref p e =>
    exact contained_bind (hcalls.eval p) fun _ => contained_bind (hcalls.eval e) fun _ =>
      contained_changing _
  | ret e =>
    cases e with
    | none => exact contained_throw rfl
    | some e => exact contained_bind (hcalls.eval e) fun _ => contained_throw rfl
  | call e => exact hcalls.callStatement e
  | increment x _ => exact contained_bump x 1
  | decrement x _ => exact contained_bump x (-1)
  | asm text => exact contained_modify _
  | hole => exact contained_fail _
  | ifThen | ifElse | whileLoop | doWhile | forLoop | block | breakLoop | continueLoop => cases hs

theorem Contained.exec (fuel : Nat) (s : Stmt) (hs : s.closed = true) :
    (s.exec calls fuel).Contained := by
  have hrunning : (Stmt.running calls).Contained :=
    ⟨fun _ hleaf => hcalls.leaf hleaf, hcalls.truth, fun _ => contained_inside {}⟩
  rw [Stmt.exec_eq_flow]
  exact hrunning.flow fuel s hs

end Careful

theorem contained_answer {body : Run Unit} (h : body.Contained) : (answer body).Contained := by
  intro m s hs
  have hm := h m
  unfold answer at hs
  rcases hbody : body m with ⟨signal | _, m'⟩
  · rw [hbody] at hs hm
    cases signal with
    | returned v => exact nomatch hs
    | failure e | outOfFuel | breakLoop | continueLoop => exact Except.error.inj hs ▸ hm _ rfl
  · rw [hbody] at hs
    exact nomatch hs

end Calls

/-! ### Functions and programs -/

theorem Func.contained_run {f : Func} (hf : ∀ s ∈ f.body, s.closed = true) {calls : Calls}
    (hcalls : calls.Contained) (fuel : Nat) (args : List Int) :
    (f.run calls fuel args).Contained := by
  have hbody : (Stmt.exec calls fuel (.block f.body)).Contained :=
    hcalls.exec fuel (.block f.body) (Stmt.closedAll_iff.mpr hf)
  exact Calls.contained_checked _ (Run.contained_inside _ (Calls.contained_answer hbody))

namespace Program

open Run

theorem find?_calls (p : Program) (fuel : Nat) : (p.calls fuel).find? = p.function? := by
  cases fuel <;> rfl

theorem contained_calls {p : Program}
    (h : ∀ name f, p.function? name = some f → ∀ s ∈ f.body, s.closed = true) (fuel : Nat) :
    (p.calls fuel).Contained := by
  induction fuel with
  | zero => exact fun _ _ _ _ => contained_throw rfl
  | succ fuel ih => exact fun name f hf args => Func.contained_run (h name f hf) ih fuel args

theorem contained_global {calls : Calls} (hcalls : calls.Contained) (d : Decl) :
    (Run.global calls d).Contained := by
  cases d with
  | var d => exact hcalls.varDecl d
  | array d => exact Calls.contained_checked _ (Calls.contained_checked _ (contained_modify _))
  | pointer d =>
    unfold Run.global
    dsimp only
    split
    case' h_1 => refine contained_bind (hcalls.eval _) fun _ => ?_
    all_goals exact contained_bind (contained_pure _) fun _ =>
      Calls.contained_checked _ (contained_modify _)

theorem contained_declareGlobals {calls : Calls} (hcalls : calls.Contained) (ds : List Decl) :
    (declareGlobals calls ds).Contained := by
  induction ds with
  | nil => exact contained_pure _
  | cons d ds ih => exact contained_bind (contained_global hcalls d) fun _ => ih

theorem contained_run {p : Program} {fuel : Nat} (hcalls : (p.calls fuel).Contained) :
    (p.run fuel).Contained := by
  refine contained_bind (contained_declareGlobals hcalls p.globals) fun _ => ?_
  split
  · exact contained_fail _
  · next f hf =>
    have hfind : (p.calls fuel).find? "main" = some f := p.find?_calls fuel ▸ hf
    exact Calls.contained_checked _ (hcalls "main" f hfind [])

end Program

/-- A program that the compiler accepts keeps its loop control: no run of it ends in a `break` or
`continue`, no call of one of its functions lets one out, and the body of a function, whatever it is
run with, sends none to the call it belongs to. -/
theorem accepted_keeps_loop_control (p : Program) (includes : List String)
    (h : (p.listing includes).isOk = true) (fuel : Nat) :
    (p.run fuel).Contained ∧ ∀ name f, p.function? name = some f →
      (∀ args, ((p.calls fuel).invoke f args).Contained) ∧
      ∀ rounds, ((Stmt.block f.body).exec (p.calls fuel) rounds).Contained := by
  have hclosed (name : String) (f : Func) (hf : p.function? name = some f) :
      ∀ s ∈ f.body, s.closed = true :=
    Program.closed_of_listing h hf
  have hcalls : (p.calls fuel).Contained := Program.contained_calls hclosed fuel
  refine ⟨Program.contained_run hcalls, ?_⟩
  intro name f hf
  have hfind : (p.calls fuel).find? name = some f := p.find?_calls fuel ▸ hf
  refine ⟨hcalls name f hfind, ?_⟩
  exact fun rounds => hcalls.exec rounds _ (Stmt.closedAll_iff.mpr (hclosed name f hf))

/-- A loop whose condition calls a function that breaks and continues in a loop of its own. -/
def loopsInCalls : Program where
  functions := [
    { name := "up", params := ["n"], body := [
      .whileLoop (.literal 1) (.block [
        .ifThen (.name "n") .breakLoop,
        .increment "n" false,
        .continueLoop]),
      .ret (some (.name "n"))] },
    { name := "main", params := [], body := [
      .forLoop (some (.assign "i" (.literal 0))) (some (.call "up" [.name "i"]))
      (some (.increment "i" false))
        (.doWhile (.ifElse (.name "i") .breakLoop .continueLoop) (.literal 0))] }]

theorem loopsInCalls_keeps_loop_control :
    (loopsInCalls.listing []).isOk = true ∧ (loopsInCalls.run 9).Contained := by
  have hok : (loopsInCalls.listing []).isOk = true := by decide +kernel
  exact ⟨hok, (accepted_keeps_loop_control loopsInCalls [] hok 9).1⟩

end WordC
