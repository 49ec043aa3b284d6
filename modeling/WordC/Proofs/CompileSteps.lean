import WordC.Proofs.StatementSteps

/-!
# What every step of the compiler keeps

Whatever a step of the compiler does and however it ends, code and data only grow at their ends,
numbers of labels are not given out again, and the open loops, the function being compiled and the
labels of functions are afterwards what they were before. The open loops aside this is an account
that all steps keep.
-/

namespace WordC

open Asm Step

structure Compiler.Extends (c c' : Compiler) : Prop where
  loops : c'.loops = c.loops
  current : c'.current = c.current
  functions : c'.functions = c.functions
  labels : c.labelCount ≤ c'.labelCount
  code : c.code.toList <+: c'.code.toList
  data : c.data.toList <+: c'.data.toList
  /-- Temporaries are handed out in turn. -/
  turning : c.pool.nextTemp < 10 → c'.pool.nextTemp < 10

namespace Compiler.Extends

theorem refl (c : Compiler) : c.Extends c :=
  ⟨rfl, rfl, rfl, Nat.le_refl _, List.prefix_refl _, List.prefix_refl _, id⟩

theorem trans {c₁ c₂ c₃ : Compiler} (h : c₁.Extends c₂) (h' : c₂.Extends c₃) : c₁.Extends c₃ where
  loops := h'.loops.trans h.loops
  current := h'.current.trans h.current
  functions := h'.functions.trans h.functions
  labels := Nat.le_trans h.labels h'.labels
  code := h.code.trans h'.code
  data := h.data.trans h'.data
  turning hc := h'.turning (h.turning hc)

end Compiler.Extends

/-- A later state, in which other loops may be open. -/
def Compiler.ExtendsTo (c : Compiler) : Account :=
  fun _ _ c' => c.Extends { c' with loops := c.loops }

instance Compiler.ExtendsTo.stepRules (k : Compiler) : StepRules k.ExtendsTo where
  line {_ _ c l} h _ _ := { h with code := h.code.trans (by simp) }
  mint h _ := { h with labels := Nat.le_succ_of_le h.labels }
  place {_ _ _ c l} h := { h with code := h.code.trans (by simp) }
  know h _ := h
  forget h _ := h
  change h hbeside :=
    { h with
      current := hbeside.current.trans h.current
      functions := hbeside.functions.trans h.functions
      labels := Nat.le_trans h.labels hbeside.labels
      code := hbeside.code ▸ h.code
      data := h.data.trans (hbeside.data ▸ List.prefix_append _ _)
      turning := fun hk => hbeside.turning (h.turning hk) }

namespace Compile

variable {α β : Type}

/-- A step extends the state of the compiler, whether it ends in a value or in an error. -/
def Keeps (step : Compile α) : Prop := ∀ c : Compiler, c.Extends (step c).2

theorem keeps_bind {x : Compile α} {f : α → Compile β} (hx : x.Keeps) (hf : ∀ a, (f a).Keeps) :
    Keeps (x >>= f) := by
  intro c
  have hc := hx c
  rw [bind_apply]
  rcases hxc : x c with ⟨e | a, c'⟩
  · rw [hxc] at hc
    exact hc
  · rw [hxc] at hc
    exact hc.trans (hf a c')

theorem keeps_of_books {x : Compile α}
    (h : ∀ c : Compiler, Books c.ExtendsTo [] [] [] x) : x.Keeps := by
  intro c
  obtain ⟨hloops, -, known, due, hend⟩ := h c c (.refl c)
  exact { hend with loops := hloops }

theorem keeps_pure (a : α) : Keeps (pure a) := fun c => .refl c

theorem keeps_get : Keeps get := fun c => .refl c

theorem keeps_line (l : Line) : (line l).Keeps := by
  intro c
  refine ⟨rfl, rfl, rfl, Nat.le_refl _, ?_, List.prefix_refl _, id⟩
  show c.code.toList <+: (c.code.push l).toList
  simp

theorem keeps_emit (i : Instr) : (emit i).Keeps := keeps_line (.instr i)

theorem keeps_place (l : Label) : (place l).Keeps := keeps_line (.label l)

theorem keeps_dataLine (l : Line) : (dataLine l).Keeps := by
  intro c
  refine ⟨rfl, rfl, rfl, Nat.le_refl _, List.prefix_refl _, ?_, id⟩
  show c.data.toList <+: (c.data.push l).toList
  simp

theorem keeps_jump (l : Label) : (jump l).Keeps := keeps_emit _

theorem keeps_jumpIfZero (r : Reg) (l : Label) : (jumpIfZero r l).Keeps := keeps_emit _

theorem keeps_labelNumber : labelNumber.Keeps := keeps_of_books fun _ => books_labelNumber

theorem keeps_mint (stem : Stem) : (mint stem).Keeps := keeps_of_books fun _ => books_mint stem

theorem keeps_temp : temp.Keeps := fun c =>
  ⟨rfl, rfl, rfl, Nat.le_refl _, List.prefix_refl _, List.prefix_refl _,
    fun _ => c.pool.temp_snd_lt⟩

theorem keeps_tempAvoiding (avoid : List Reg) : (tempAvoiding avoid).Keeps := fun c =>
  ⟨rfl, rfl, rfl, Nat.le_refl _, List.prefix_refl _, List.prefix_refl _,
    fun _ => RegPool.tempAvoiding_snd_lt avoid 9 c.pool⟩

theorem keeps_allocate (x : String) : (allocate x).Keeps := keeps_of_books fun _ => books_allocate x

/-- A change of the tables that say where names live. -/
theorem keeps_places {f : Compiler → Compiler} (h : ∀ c, (f c).loops = c.loops ∧
      (f c).current = c.current ∧ (f c).functions = c.functions ∧ (f c).labelCount = c.labelCount ∧
      (f c).code = c.code ∧ (f c).data = c.data ∧ (f c).pool.nextTemp = c.pool.nextTemp) :
    Keeps (modify f) := by
  intro c
  obtain ⟨hloops, hcurrent, hfunctions, hlabels, hcode, hdata, hturn⟩ := h c
  show c.Extends (f c)
  exact ⟨hloops, hcurrent, hfunctions, hlabels ▸ Nat.le_refl _, hcode ▸ List.prefix_refl _,
    hdata ▸ List.prefix_refl _, fun hc => hturn ▸ hc⟩

theorem keeps_zeros (n : Nat) : (zeros n).Keeps := keeps_of_books fun _ => books_zeros n

/-! ### Expressions and statements -/

theorem keeps_binary (op : BinOp) (d l r : Reg) : (binary op d l r).Keeps :=
  keeps_of_books fun _ => books_binary trivial l r op

theorem keeps_unary (op : UnaryOp) (d a : Reg) : (unary op d a).Keeps :=
  keeps_of_books fun _ => books_unary trivial op a

theorem keeps_name (x : String) : (name x).Keeps := keeps_of_books fun _ => books_name x

theorem keeps_loadElement (a : String) (i : Reg) : (loadElement a i).Keeps :=
  keeps_of_books fun _ => books_loadElement a i

theorem keeps_addressOfElement (d : Reg) (a : String) (i : Reg) : (addressOfElement d a i).Keeps :=
  keeps_of_books fun _ => books_addressOfElement d a i

theorem keeps_addressOfName (d : Reg) (x : String) : (addressOfName d x).Keeps :=
  keeps_of_books fun _ => books_addressOfName d x

theorem keeps_stepLabel (start : Label) (step : Option ForStep) : (stepLabel start step).Keeps := by
  cases step with
  | none => exact keeps_pure _
  | some st => exact keeps_mint _

theorem keeps_loadParams (xs : List String) (i : Nat) : (loadParams i xs).Keeps :=
  keeps_of_books fun _ => books_loadParams xs i

theorem keeps_finish : finish.Keeps := keeps_of_books fun _ => books_finish

theorem keeps_globalAll (ds : List Decl) : (globalAll ds).Keeps :=
  keeps_of_books fun _ => books_globalAll ds

end Compile

theorem Expr.keeps_compile (e : Expr) : e.compile.Keeps :=
  Compile.keeps_of_books fun _ => e.books_compile

theorem Stmt.keeps_compile (s : Stmt) : s.compile.Keeps :=
  Compile.keeps_of_books fun _ => s.books_compile

/-! ### Functions -/

/-- The state in which the code of a function starts: with registers of its own. -/
def Compiler.enter (c : Compiler) (f : Func) : Compiler :=
  { c with
    current := some f.name, pool := {}
    stackOffset := if f.name = "main" then 0 else 1 + f.params.length }

/-- The state behind a function, with the registers of what is around it. -/
def Compiler.leave (c outer : Compiler) : Compiler :=
  { c with
    returned := false, current := outer.current
    pool := outer.pool, stackOffset := outer.stackOffset }

namespace Func

open Compile

/-- All lines of a function. -/
def lines (f : Func) : Compile Unit := do
  line .blank
  place (((← get).functions.get? f.name).getD (functionLabel f.name))
  line (.comment ("Function: " ++ f.name))
  let _ ← temp
  loadParams 0 f.params
  modify fun c => { c with returned := false }
  Stmt.compileAll f.body
  finish

theorem keeps_lines (f : Func) : f.lines.Keeps := by
  refine keeps_bind (keeps_line _) fun _ => keeps_bind keeps_get fun c =>
    keeps_bind (keeps_place _) fun _ => ?_
  refine keeps_bind (keeps_line _) fun _ => keeps_bind keeps_temp fun _ =>
    keeps_bind (keeps_loadParams f.params 0) fun _ => ?_
  refine keeps_bind (keeps_places fun _ => ⟨rfl, rfl, rfl, rfl, rfl, rfl, rfl⟩) fun _ =>
    keeps_bind ?_ fun _ => keeps_finish
  exact keeps_of_books fun _ => Stmt.books_compileAll fun s _ => s.books_compile

theorem compile_eq (f : Func) : f.compile = (do
    let outer ← get
    modify (·.enter f)
    f.lines
    modify (·.leave outer)) := by
  have hite (p : Prop) [Decidable p] (x y : Compile Unit) (k : Unit → Compile Unit) :
      (if p then x else y) >>= k = if p then x >>= k else y >>= k := by
    split <;> rfl
  unfold compile lines finish
  simp [Compiler.enter, Compiler.leave, hite]

/-- A function that is compiled leaves its lines and restores what is around it. -/
theorem compile_eq_ok {f : Func} {c c' : Compiler} (h : f.compile c = (.ok (), c')) :
    ∃ c₁, f.lines (c.enter f) = (.ok (), c₁) ∧ c' = c₁.leave c := by
  rw [compile_eq, bind_ok (get_apply c)] at h
  obtain ⟨_, c₁, hlines, hleft⟩ :=
    bind_eq_ok (show (f.lines >>= fun _ => modify (·.leave c)) (c.enter f) = (.ok (), c') from h)
  exact ⟨c₁, hlines, (congrArg Prod.snd hleft).symm⟩

end Func

/-! ### The parts of a program -/

namespace Compile

/-- The lines in front of all code. -/
def header (includes : List String) : Compile Unit := do
  line (.directive ";format binary")
  line .blank
  includes.forM fun path => line (includeLine path)
  line .blank

theorem keeps_header (includes : List String) : (header includes).Keeps := by
  have hincludes (paths : List String) :
      Keeps (paths.forM fun path => line (includeLine path)) := by
    induction paths with
    | nil => exact keeps_pure _
    | cons path paths ih => exact keeps_bind (keeps_line _) fun _ => ih
  refine keeps_bind (keeps_line _) fun _ => keeps_bind (keeps_line _) fun _ => ?_
  exact keeps_bind (hincludes includes) fun _ => keeps_line _

/-- The main function with its entry. -/
def mainLines : Option Func → Compile Unit
  | some f => do
    line (.directive "entry main")
    line .blank
    f.compile
  | none => pure ()

/-- The state with the data section behind the code. -/
def joinData (c : Compiler) : Compiler :=
  if c.data.isEmpty then c
  else { c with code := c.code ++ #[.blank, .directive "; Data section"] ++ c.data }

end Compile

namespace Program

open Compile

theorem compile_eq (p : Program) (includes : List String) : p.compile includes = (do
    modify fun c => { c with code := #[] }
    header includes
    modify fun c => { c with
      functions := p.functions.foldl (fun t f => t.set f.name (functionLabel f.name)) c.functions }
    globalAll p.globals
    mainLines p.mainFunction?
    functionAll p.otherFunctions
    modify joinData) := by
  unfold compile
  cases p.mainFunction? <;> simp only [header, mainLines, bind_assoc, pure_bind] <;> rfl

/-- A listing is the code that the compiler ends with when it starts from nothing. -/
theorem compile_of_listing {p : Program} {includes : List String} {lines : Array Line}
    (h : p.listing includes = .ok lines) :
    ∃ k, p.compile includes {} = (.ok (), k) ∧ k.code = lines := by
  unfold listing at h
  rcases hrun : (ExceptT.run (p.compile includes)).run {} with ⟨e | _, k⟩
  · rw [hrun] at h
    cases h
  · rw [hrun] at h
    exact ⟨k, hrun, Except.ok.inj h⟩

end Program

end WordC
