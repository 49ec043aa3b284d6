import Mathlib.Data.List.Dedup
import Mathlib.Data.List.Perm.Subperm
import WordC.Proofs.StackCode
import WordC.Proofs.Tables

/-!
# The registers of a function

The scalars of a function take the registers from eleven on, in the order in which they come. So its
code writes variables only below a register that can be told from the names of its scalars, and it
keeps to the heights of the stack as long as these registers end below the stack pointer.
-/

namespace WordC

open Asm Compile Step

/-! ### Scalars -/

/-- The names that a declaration inside a function gives a register. -/
def Decl.scalars : Decl → List String
  | var d => [d.name]
  | array _ => []
  | pointer d => [d.name]

/-- An assignment gives a register to a name that nothing outside of the function has. -/
def assigned (outside : List String) (x : String) : List String := if x ∈ outside then [] else [x]

def ForInit.scalars (outside : List String) : ForInit → List String
  | declare d => [d.name]
  | assign x _ => assigned outside x

def ForStep.scalars (outside : List String) : ForStep → List String
  | increment x _ | decrement x _ => [x]
  | assign x _ => assigned outside x

mutual

/-- The names that the code of a statement finds in registers and writes. -/
def Stmt.scalars (outside : List String) : Stmt → List String
  | decl d => d.scalars
  | assign x _ => assigned outside x
  | increment x _ | decrement x _ => [x]
  | ifThen _ s | whileLoop _ s | doWhile s _ => s.scalars outside
  | ifElse _ s t => s.scalars outside ++ t.scalars outside
  | forLoop init _ step s =>
    init.toList.flatMap (·.scalars outside) ++ s.scalars outside ++
      step.toList.flatMap (·.scalars outside)
  | block ss => Stmt.scalarsAll outside ss
  | assignIndex _ _ _ | assignDeref _ _ | ret _ | call _ | breakLoop | continueLoop | asm _
  | hole => []

def Stmt.scalarsAll (outside : List String) : List Stmt → List String
  | [] => []
  | s :: ss => s.scalars outside ++ Stmt.scalarsAll outside ss

end

def Decl.plain : Decl → Bool
  | var d => d.register.isNone
  | array _ | pointer _ => true

def ForInit.plain : ForInit → Bool
  | declare d => d.register.isNone
  | assign _ _ => true

mutual

/-- No raw assembly and no variables bound to a register. -/
def Stmt.plain : Stmt → Bool
  | decl d => d.plain
  | ifThen _ s | whileLoop _ s | doWhile s _ => s.plain
  | ifElse _ s t => s.plain && t.plain
  | forLoop init _ _ s => init.all ForInit.plain && s.plain
  | block ss => Stmt.plainAll ss
  | asm _ => false
  | assign _ _ | assignIndex _ _ _ | assignDeref _ _ | ret _ | call _ | increment _ _
  | decrement _ _ | breakLoop | continueLoop
  | hole => true

def Stmt.plainAll : List Stmt → Bool
  | [] => true
  | s :: ss => s.plain && Stmt.plainAll ss

end

/-- The register behind those of the given names. -/
def firstFree (names : List String) : Nat := 11 + names.dedup.length

/-! ### Registers that are given out -/

/-- Registers were given to some of the names, in turn. -/
structure Within (names : List String) (t : Table Reg) : Prop where
  nodup : t.keys.Nodup
  keys : ∀ x ∈ t.keys, x ∈ names
  below : ∀ x (r : Nat), t.get? x = some r → r < 11 + t.size

namespace Within

variable {names : List String} {t : Table Reg} {x : String} {r : Nat}

theorem empty : Within names {} := ⟨List.nodup_nil, nofun, nofun⟩

theorem size_le (h : Within names t) : 11 + t.size ≤ firstFree names := by
  have hsub : t.keys.Subperm names.dedup :=
    List.subperm_of_subset h.nodup fun x hx => List.mem_dedup.mpr (h.keys x hx)
  have hle := hsub.length_le
  rw [Table.keys, List.length_map] at hle
  exact Nat.add_le_add_left hle 11

theorem get_lt (h : Within names t) (hx : t.get? x = some r) : r < firstFree names :=
  Nat.lt_of_lt_of_le (h.below x r hx) h.size_le

theorem set (h : Within names t) (hx : x ∈ names) (hnew : t.get? x = none) :
    Within names (t.set x (11 + t.size)) := by
  have hkeys : (t.set x (11 + t.size)).keys = t.keys ++ [x] := by
    simp [Table.keys_set, Table.contains, hnew]
  have hsize : (t.set x (11 + t.size)).size = t.size + 1 := by
    have hlength := congrArg List.length hkeys
    simpa [Table.keys, Table.size] using hlength
  refine ⟨Table.nodup_keys_set h.nodup x _, fun y hy => ?_, fun y r hr => ?_⟩
  · rw [hkeys] at hy
    rcases List.mem_append.mp hy with hy | hy
    · exact h.keys y hy
    · exact List.mem_singleton.mp hy ▸ hx
  · rw [hsize]
    rw [Table.get?_set] at hr
    split at hr
    · cases hr
      exact Nat.lt_succ_self _
    · exact Nat.lt_succ_of_lt (h.below y r hr)

theorem allocate {p p' : RegPool} (h : Within names p.allocated) (hx : x ∈ names)
    (hp : p.nextTemp < 10) (hfound : p.allocate? x = some (r, p')) :
    p'.nextTemp < 10 ∧ Within names p'.allocated ∧ r < firstFree names := by
  unfold RegPool.allocate? at hfound
  split at hfound
  · next r' hr' =>
    cases hfound
    exact ⟨hp, h, h.get_lt hr'⟩
  · next hnew =>
    dsimp only at hfound
    split at hfound
    · cases hfound
    · cases hfound
      have hset := h.set hx hnew
      exact ⟨hp, hset, hset.get_lt (Table.get?_set_self ..)⟩

end Within

/-- What the compiler relies on inside a function, or outside of all. -/
structure Compiler.Scoped (current : Option String) (names outside : List String)
    (k : Compiler) : Prop where
  current : k.current = current
  within : Within names k.pool.allocated
  outside : ∀ x ∈ outside, (k.globals.get? x).isSome = true
  data : ∀ l ∈ k.data.toList, l.isInert = true
  loops : ∀ l ∈ k.loops, l.next.isBranch = true ∧ l.exit.isBranch = true

namespace Compile

variable {current : Option String} {names outside : List String} {h : Int}

/-! ### Steps that change the tables -/

theorem lays_modify {A : Compiler → Prop} {S : Layout} [ExprLayout S] {f : Compiler → Compiler}
    (hf : ∀ k, k.Ready A → (f k).Ready A)
    (hcode : ∀ k, (f k).code = k.code ∧ (f k).labelCount = k.labelCount) :
    Stays A S h (modify f) := by
  refine lays_silent fun k a k' hk hrun => ?_
  cases hrun
  exact ⟨hf k hk, trivial, (hcode k).1, Nat.le_of_eq (hcode k).2.symm⟩

variable {top : Nat} {x : String}

/-- A change of the tables of places only. -/
theorem lays_places {f : Compiler → Compiler} (hf : ∀ k, (f k).pool = k.pool ∧ (f k).functions =
      k.functions ∧ (f k).current = k.current ∧ (f k).globals = k.globals ∧ (f k).data = k.data ∧
      (f k).loops = k.loops ∧ (f k).code = k.code ∧ (f k).labelCount = k.labelCount) :
    Stays (Compiler.Scoped current names outside) (Body top) h (modify f) := by
  refine lays_modify (fun k hk => ?_) fun k => ⟨(hf k).2.2.2.2.2.2.1, (hf k).2.2.2.2.2.2.2⟩
  obtain ⟨hpool, hfunctions, hcurrent, hglobals, hdata, hloops, -, -⟩ := hf k
  obtain ⟨hturning, hlinked, ⟨hcurrent', hwithin, houtside, hinert, hbranch⟩⟩ := hk
  refine ⟨hpool ▸ hturning, hfunctions ▸ hlinked, ⟨?_, ?_, ?_, ?_, ?_⟩⟩
  · exact hcurrent.trans hcurrent'
  · show Within names (f k).pool.allocated
    exact hpool ▸ hwithin
  · show ∀ x ∈ outside, ((f k).globals.get? x).isSome = true
    exact hglobals ▸ houtside
  · show ∀ l ∈ (f k).data.toList, l.isInert = true
    exact hdata ▸ hinert
  · show ∀ l ∈ (f k).loops, l.next.isBranch = true ∧ l.exit.isBranch = true
    exact hloops ▸ hbranch

theorem lays_dataLines {f : Array Line → Array Line}
    (hf : ∀ ls, (∀ l ∈ ls.toList, l.isInert = true) → ∀ l ∈ (f ls).toList, l.isInert = true) :
    Stays (Compiler.Scoped current names outside) (Body top) h (modify fun c => { c with
      data := f c.data }) := by
  refine lays_modify (fun k hk => ?_) fun k => ⟨rfl, rfl⟩
  exact ⟨hk.turning, hk.functions,
    ⟨hk.other.current, hk.other.within, hk.other.outside, hf _ hk.other.data, hk.other.loops⟩⟩

theorem lays_dataLine {l : Line} (hl : l.isInert = true) :
    Stays (Compiler.Scoped current names outside) (Body top) h (dataLine l) := by
  refine lays_dataLines (f := (·.push l)) fun ls hls l' hl' => ?_
  rw [Array.toList_push] at hl'
  rcases List.mem_append.mp hl' with hl' | hl'
  · exact hls l' hl'
  · exact List.mem_singleton.mp hl' ▸ hl

theorem lays_zeros (n : Nat) :
    Stays (Compiler.Scoped current names outside) (Body top) h (zeros n) := by
  refine lays_dataLines (f := (· ++ Array.replicate n (.word 0))) fun ls hls l hl => ?_
  rw [Array.toList_append] at hl
  rcases List.mem_append.mp hl with hl | hl
  · exact hls l hl
  · rw [Array.toList_replicate] at hl
    exact List.eq_of_mem_replicate hl ▸ rfl

theorem allocate_eq_ok {r : Reg} {k k' : Compiler} (hrun : allocate x k = (.ok r, k')) :
    ∃ pool, k.pool.allocate? x = some (r, pool) ∧ k' = { k with pool } := by
  rw [allocate, bind_ok (get_apply k)] at hrun
  rcases hpool : k.pool.allocate? x with _ | ⟨r', pool⟩
  · rw [hpool] at hrun
    cases hrun
  · rw [hpool] at hrun
    cases hrun
    exact ⟨pool, rfl, rfl⟩

/-- A variable with a register of its own choice gets it, if it is not the register of jumps. -/
theorem registerVar_eq_ok {d : VarDecl} {r : Fin 32} {k k' : Compiler}
    (hrun : registerVar d r k = (.ok (), k')) : r.val ≤ 30 ∧
    ∃ k₁, k₁ = { k with pool := { k.pool with allocated := k.pool.allocated.set d.name r.val } } ∧
      ((∃ e, d.init = some e ∧ initTo r.val e k₁ = (.ok (), k')) ∨ d.init = none ∧ k' = k₁) := by
  unfold registerVar at hrun
  by_cases hr : r.val > 30
  · rcases hinit : d.init with _ | e
    all_goals
      simp only [hinit, if_pos hr] at hrun
      cases hrun
  · refine ⟨Nat.le_of_not_lt hr, _, rfl, ?_⟩
    rcases hinit : d.init with _ | e
    all_goals simp only [hinit, if_neg hr] at hrun
    · cases hrun
      exact .inr ⟨rfl, rfl⟩
    · exact .inl ⟨e, rfl, hrun⟩

theorem lays_allocate (hx : x ∈ names) : Lays (Compiler.Scoped current names outside) (Body top) h
    (allocate x) h (· < firstFree names) := by
  refine lays_silent fun k r k' hk hrun => ?_
  obtain ⟨pool, hpool, rfl⟩ := allocate_eq_ok hrun
  obtain ⟨hturning, hwithin, hr⟩ :=
    Within.allocate (p := k.pool) hk.other.within hx hk.turning hpool
  exact ⟨⟨hturning, hk.functions, ⟨hk.other.current, hwithin, hk.other.outside, hk.other.data,
    hk.other.loops⟩⟩, hr, rfl, Nat.le_refl _⟩

theorem lays_registerOf (hx : registerDigits? x = none) :
    Lays (Compiler.Scoped current names outside) (Body top) h (registerOf? x) h
      fun found => ∀ r, found = some r → r < firstFree names := by
  refine lays_bind lays_get fun k hk => ?_
  split
  · next r hr => exact lays_pure fun r' heq => Option.some.inj heq ▸ hk.other.within.get_lt hr
  · rw [hx]
    exact lays_pure nofun

theorem lays_inLoop {α : Type} {labels : LoopLabels} {x : Compile α} {P : α → Prop} {h' : Int}
    (hnext : labels.next.isBranch = true) (hexit : labels.exit.isBranch = true)
    (hx : Lays (Compiler.Scoped current names outside) (Body top) h x h' P) :
    Lays (Compiler.Scoped current names outside) (Body top) h (inLoop labels x) h' P := by
  intro k a k' hk hrun
  obtain ⟨k₁, hstep, rfl⟩ := inLoop_eq_ok hrun
  have hopen : (k.openLoop labels).Ready (Compiler.Scoped current names outside) :=
    ⟨hk.turning, hk.functions, ⟨hk.other.current, hk.other.within, hk.other.outside, hk.other.data,
      List.forall_mem_cons.mpr ⟨⟨hnext, hexit⟩, hk.other.loops⟩⟩⟩
  obtain ⟨hk₁, ha, hlines⟩ := hx _ a k₁ hopen hstep
  refine ⟨⟨hk₁.turning, hk₁.functions,
    ⟨hk₁.other.current, hk₁.other.within, hk₁.other.outside, hk₁.other.data, ?_⟩⟩, ha, hlines⟩
  exact fun l hl => hk₁.other.loops l (List.mem_of_mem_tail hl)

theorem lays_current :
    Lays (Compiler.Scoped current names outside) (Body top) h currentFunction h (· = current) :=
  lays_bind lays_get fun _ hk => lays_pure hk.other.current

theorem lays_labelNumber {A : Compiler → Prop} {S : Layout} [ExprLayout S] :
    Stays A S h labelNumber := by
  refine lays_silent fun k a k' hk hrun => ?_
  cases hrun
  exact ⟨⟨hk.turning, hk.functions, hk.other⟩, trivial, rfl, Nat.le_succ _⟩

/-! ### Declarations in the data section -/

theorem isInert_dataWord (e : Expr) : (dataWord e).isInert = true := by
  cases e <;> rfl

theorem lays_localValues (l : Label) (es : List Expr) (i : Nat) :
    Stays (Compiler.Scoped current names outside) (Body top) h (localValues l i es) := by
  induction es generalizing i with
  | nil => exact lays_return ()
  | cons e es ih =>
    rw [localValues]
    refine lays_then (lays_dataLine (isInert_dataWord e)) ?_
    split
    · exact ih (i + 1)
    · refine lays_bind (e.lays_compile h) fun v _ => lays_bind lays_temp fun a ha =>
        lays_then (lays_put rfl ha) ?_
      refine lays_bind lays_temp fun n hn =>
        lays_then (lays_put rfl hn) (lays_then (lays_put rfl ha) ?_)
      exact lays_then (lays_quiet rfl) (ih (i + 1))

theorem lays_localArray (d : ArrayDecl) (size : Nat) (f : String) :
    Stays (Compiler.Scoped current names outside) (Body top) h (localArray d size f) := by
  refine lays_bind lays_labelNumber fun n _ =>
    lays_then (lays_dataLine rfl) (lays_then (lays_localValues _ _ _) ?_)
  refine lays_then (lays_zeros _) (lays_places fun k => ?_)
  exact ⟨rfl, rfl, rfl, rfl, rfl, rfl, rfl, rfl⟩

theorem lays_arrayDecl {f : String} (d : ArrayDecl) :
    Stays (Compiler.Scoped (some f) names outside) (Body top) h (arrayDecl d) := by
  unfold arrayDecl
  split
  · refine lays_ite (lays_throw _) (lays_bind lays_current fun current hcurrent => ?_)
    subst hcurrent
    exact lays_localArray d _ f
  · exact lays_throw _

/-! ### Writing a variable -/

section Variables

variable (hfree : firstFree names ≤ sp)

include hfree

variable {A : Compiler → Prop} {d : Nat}

theorem lays_write {i : Instr} (hi : i.target? = some d) (hd : d < firstFree names) :
    Stays A (Body (firstFree names)) h (emit i) :=
  lays_line fun _ => .instr fun r hr => by cases hi.symm.trans hr; exact .inr (.inr ⟨hd, hfree⟩)

theorem lays_moveTo (hd : d < firstFree names) (r : Reg) :
    Stays A (Body (firstFree names)) h (move d r) :=
  lays_ite (lays_write hfree rfl hd) (lays_return ())

theorem lays_initTo (hd : d < firstFree names) (e : Expr) :
    Stays A (Body (firstFree names)) h (initTo d e) :=
  lays_bind (e.lays_compile h) fun r _ => lays_moveTo hfree hd r

theorem lays_localVar {d : VarDecl} (hd : d.name ∈ names) :
    Stays (Compiler.Scoped current names outside) (Body (firstFree names)) h (localVar d) := by
  refine lays_bind (lays_allocate hd) fun r hr => ?_
  refine lays_then (lays_places fun k => ⟨rfl, rfl, rfl, rfl, rfl, rfl, rfl, rfl⟩) ?_
  split
  · exact lays_initTo hfree hr _
  · exact lays_write hfree rfl hr

theorem lays_pointerDecl {d : PointerDecl} (hd : d.name ∈ names) :
    Stays (Compiler.Scoped current names outside) (Body (firstFree names)) h (pointerDecl d) := by
  refine lays_bind (lays_allocate hd) fun r hr => ?_
  split
  · exact lays_initTo hfree hr _
  · exact lays_write hfree rfl hr

theorem lays_varDecl {f : String} {d : VarDecl}
    (hplain : d.register.isNone = true) (hd : d.name ∈ names) :
    Stays (Compiler.Scoped (some f) names outside) (Body (firstFree names)) h (varDecl d) := by
  rw [varDecl, Option.isNone_iff_eq_none.mp hplain]
  refine lays_bind lays_current fun current hcurrent => ?_
  subst hcurrent
  exact lays_localVar hfree hd

omit hfree in
theorem lays_storeLabel {S : Layout} [ExprLayout S] (l : Label) (v : Reg) :
    Stays A S h (storeLabel l v) :=
  lays_bind (lays_tempAvoiding _) fun _ ha => lays_then (lays_put rfl ha) (lays_quiet rfl)

theorem lays_assign {x : String} (hx : ∀ y ∈ assigned outside x, y ∈ names)
    (hdigits : ∀ y ∈ names, registerDigits? y = none) (e : Expr) :
    Stays (Compiler.Scoped current names outside) (Body (firstFree names)) h (assign x e) := by
  refine lays_bind (e.lays_compile h) fun v _ => lays_bind lays_get fun k hk => ?_
  split
  · exact lays_storeLabel _ v
  · next hglobal =>
    have hmem : x ∈ names := by
      refine hx x ?_
      rw [assigned, if_neg fun hout => ?_]
      · exact List.mem_singleton_self x
      · have hsome := hk.other.outside x hout
        rw [show k.rest.globals.get? x = none from hglobal] at hsome
        cases hsome
    refine lays_bind (lays_registerOf (hdigits x hmem)) fun found hfound => ?_
    split
    · exact lays_moveTo hfree (hfound _ rfl) v
    · exact lays_bind (lays_allocate hmem) fun r hr => lays_moveTo hfree hr v

theorem lays_bump {x : String} (hdigits : registerDigits? x = none) (op : AluOp) :
    Stays (Compiler.Scoped current names outside) (Body (firstFree names)) h (bump op x) := by
  refine lays_bind (lays_registerOf hdigits) fun found hfound => ?_
  split
  · refine lays_bind lays_temp fun one hone => lays_then (lays_put rfl hone) ?_
    exact lays_write hfree rfl (hfound _ rfl)
  · exact lays_throw _

end Variables

/-! ### Statements that write no variable -/

section Statements

variable {A : Compiler → Prop} {S : Layout} [ExprLayout S] {top : Nat}

theorem lays_assignIndex (a : String) (i e : Expr) : Stays A S h (assignIndex a i e) := by
  refine lays_bind (i.lays_compile h) fun i _ => lays_bind (e.lays_compile h) fun v _ =>
    lays_bind lays_get fun k _ => ?_
  split
  · refine lays_bind lays_temp fun t ht => lays_bind (lays_arrayLabel a _) fun l _ => ?_
    exact lays_then (lays_elementAddress ht l i) (lays_quiet rfl)
  · exact lays_throw _

theorem lays_assignDeref (p e : Expr) : Stays A S h (assignDeref p e) :=
  lays_bind (p.lays_compile h) fun _ _ => lays_bind (e.lays_compile h) fun _ _ => lays_quiet rfl

theorem lays_callStatement (e : Expr) : Stays A S h (callStatement e) := by
  unfold callStatement
  split
  · refine lays_bind lays_get fun k _ =>
      lays_ite (lays_then (Expr.lays_compile _ h) (lays_return ())) ?_
    refine lays_bind (Expr.lays_compileAll fun e _ => e.lays_compile) fun regs _ => lays_ite ?_ ?_
    · split
      · exact lays_quiet rfl
      · exact lays_throw _
    · exact lays_then (Expr.lays_compile _ h) (lays_return ())
  · exact lays_throw _

/-- A function is left from height zero. The line behind starts at height zero again. -/
theorem lays_leave : Stays A (Body top) 0 leave := by
  refine lays_bind lays_currentFunction fun f _ =>
    lays_ite (lays_line fun _ => .instr fun _ hr => by cases hr) ?_
  intro k a k' hk hrun
  rw [bind_ok (Compiler.emit_eq _ _), bind_ok (Compiler.emit_wrote ..), Compiler.emit_wrote] at hrun
  cases hrun
  exact ⟨hk.wrote _ _ _, trivial, _, by simp [Compiler.wrote], .leave⟩

theorem lays_ret (value : Option Expr) :
    Stays (Compiler.Scoped current names outside) (Body top) 0 (ret value) := by
  refine lays_then (lays_places fun k => ⟨rfl, rfl, rfl, rfl, rfl, rfl, rfl, rfl⟩) ?_
  split
  · exact lays_bind (Expr.lays_compile _ 0) fun v _ =>
      lays_then (lays_move (by decide) v) lays_leave
  · exact lays_then (lays_put rfl (by decide)) lays_leave

/-! ### Branches -/

theorem lays_place {l : Label} (hl : l.isBranch = true) : Stays A (Body top) 0 (place l) :=
  lays_line fun _ => .branchLabel hl

theorem lays_jump {l : Label} (hl : l.isBranch = true) : Stays A (Body top) 0 (jump l) :=
  lays_line fun _ => .branchJump rfl hl

theorem lays_jumpIfZero (r : Reg) {l : Label} (hl : l.isBranch = true) :
    Stays A (Body top) 0 (jumpIfZero r l) :=
  lays_line fun _ => .branchJump rfl hl

theorem lays_branch {stem : Stem} (hstem : stem.isBranch = true) :
    Lays A (Body top) h (mint stem) h (·.isBranch = true) :=
  lays_weaken (lays_mint stem) fun _ ⟨_, heq⟩ => heq ▸ hstem

theorem lays_exitUnless (c : Expr) {exit : Label} (hexit : exit.isBranch = true) :
    Stays A (Body top) 0 (exitUnless c exit) :=
  lays_bind (c.lays_compile 0) fun r _ => lays_jumpIfZero r hexit

end Statements

end Compile

namespace Stmt

variable {f : String} {names outside : List String}

section Loops

variable (hfree : firstFree names ≤ sp) (hdigits : ∀ x ∈ names, registerDigits? x = none)

include hfree hdigits

theorem lays_forStart {init : Option ForInit} (hplain : init.all ForInit.plain = true)
    (hscalars : ∀ x ∈ init.toList.flatMap (·.scalars outside), x ∈ names) :
    Stays (Compiler.Scoped (some f) names outside) (Body (firstFree names)) 0 (forStart init) := by
  cases init with
  | none => exact lays_return ()
  | some i =>
    cases i with
    | declare d => exact lays_varDecl hfree hplain (hscalars d.name (by simp [ForInit.scalars]))
    | assign x e =>
      exact lays_assign hfree
        (fun y hy => hscalars y (by simpa [ForInit.scalars] using hy)) hdigits e

theorem lays_forNext {next : Label} (hnext : next.isBranch = true) {step : Option ForStep}
    (hscalars : ∀ x ∈ step.toList.flatMap (·.scalars outside), x ∈ names) : Stays
    (Compiler.Scoped (some f) names outside) (Body (firstFree names)) 0 (forNext next step) := by
  cases step with
  | none => exact lays_return ()
  | some st =>
    refine lays_then (lays_place hnext) ?_
    cases st with
    | increment x before =>
      exact lays_bump hfree (hdigits x (hscalars x (by simp [ForStep.scalars]))) .add
    | decrement x before =>
      exact lays_bump hfree (hdigits x (hscalars x (by simp [ForStep.scalars]))) .sub
    | assign x e =>
      exact lays_assign hfree
        (fun y hy => hscalars y (by simpa [ForStep.scalars] using hy)) hdigits e

omit hfree hdigits in
theorem lays_stepLabel {A : Compiler → Prop} {top : Nat} {h : Int} {start : Label}
    (hstart : start.isBranch = true) (step : Option ForStep) :
    Lays A (Body top) h (stepLabel start step) h (·.isBranch = true) := by
  cases step with
  | none => exact lays_pure hstart
  | some st => exact lays_branch rfl

omit hfree hdigits in
theorem lays_forTest {A : Compiler → Prop} {top : Nat} {exit : Label} (hexit : exit.isBranch = true)
    (c : Option Expr) : Stays A (Body top) 0 (forTest exit c) := by
  cases c with
  | none => exact lays_return ()
  | some c =>
    refine lays_bind (c.lays_compile 0) fun r _ => lays_bind lays_temp fun z hz => ?_
    exact lays_then (lays_put rfl hz) (lays_jumpIfZero r hexit)

end Loops

theorem lays_compileAll {A : Compiler → Prop} {top : Nat} {ss : List Stmt}
    (hss : ∀ s ∈ ss, Stays A (Body top) 0 s.compile) : Stays A (Body top) 0 (compileAll ss) := by
  induction ss with
  | nil =>
    rw [compileAll]
    exact lays_return ()
  | cons s ss ih =>
    obtain ⟨hs, hss⟩ := List.forall_mem_cons.mp hss
    rw [compileAll]
    exact lays_then hs (ih hss)

theorem plain_of_mem {s : Stmt} {ss : List Stmt} (hs : s ∈ ss) (hplain : plainAll ss = true) :
    s.plain = true := by
  induction ss with
  | nil => cases hs
  | cons t ss ih =>
    rw [plainAll, Bool.and_eq_true] at hplain
    rcases List.mem_cons.mp hs with rfl | hs
    · exact hplain.1
    · exact ih hs hplain.2

theorem scalars_of_mem {s : Stmt} {ss : List Stmt} (hs : s ∈ ss) {x : String}
    (hx : x ∈ s.scalars outside) : x ∈ scalarsAll outside ss := by
  induction ss with
  | nil => cases hs
  | cons t ss ih =>
    rw [scalarsAll, List.mem_append]
    rcases List.mem_cons.mp hs with rfl | hs
    · exact .inl hx
    · exact .inr (ih hs)

/-- The code of a statement starts and ends with nothing on the stack and writes variables of its
function only. -/
theorem lays_compile (hfree : firstFree names ≤ sp)
    (hdigits : ∀ x ∈ names, registerDigits? x = none) (s : Stmt) :
    s.plain = true → (∀ x ∈ s.scalars outside, x ∈ names) →
    Stays (Compiler.Scoped (some f) names outside) (Body (firstFree names)) 0 s.compile := by
  induction s with
  | decl d =>
    intro hplain hscalars
    rw [compile]
    cases d with
    | var d => exact lays_varDecl hfree hplain (hscalars d.name (List.mem_singleton_self _))
    | array d => exact lays_arrayDecl d
    | pointer d => exact lays_pointerDecl hfree (hscalars d.name (List.mem_singleton_self _))
  | assign x e =>
    intro _ hscalars
    rw [compile]
    exact lays_assign hfree hscalars hdigits e
  | assignIndex a i e =>
    intros
    rw [compile]
    exact lays_assignIndex a i e
  | assignDeref p e =>
    intros
    rw [compile]
    exact lays_assignDeref p e
  | ret value =>
    intros
    rw [compile]
    exact lays_ret value
  | ifThen c s ih =>
    intro hplain hscalars
    rw [compile]
    refine lays_bind (c.lays_compile 0) fun r _ =>
      lays_then (lays_mint _) (lays_bind (lays_branch rfl) fun done hdone => ?_)
    refine lays_bind lays_temp fun z hz =>
      lays_then (lays_put rfl hz) (lays_then (lays_jumpIfZero r hdone) ?_)
    exact lays_then (ih hplain hscalars) (lays_place hdone)
  | ifElse c s t ihs iht =>
    intro hplain hscalars
    obtain ⟨hs, ht⟩ : s.plain = true ∧ t.plain = true := by simpa [plain] using hplain
    obtain ⟨hs', ht'⟩ := List.forall_mem_append.mp hscalars
    rw [compile]
    refine lays_bind (c.lays_compile 0) fun r _ =>
      lays_bind (lays_branch rfl) fun other hother => ?_
    refine lays_bind (lays_branch rfl) fun done hdone => lays_bind lays_temp fun z hz =>
      lays_then (lays_put rfl hz) ?_
    refine lays_then (lays_jumpIfZero r hother)
      (lays_then (ihs hs hs') (lays_then (lays_jump hdone) ?_))
    exact lays_then (lays_place hother) (lays_then (iht ht ht') (lays_place hdone))
  | whileLoop c s ih =>
    intro hplain hscalars
    rw [compile]
    refine lays_bind (lays_branch rfl) fun start hstart =>
      lays_bind (lays_branch rfl) fun exit hexit => ?_
    refine lays_inLoop hstart hexit
      (lays_then (lays_place hstart) (lays_then (lays_exitUnless c hexit) ?_))
    exact lays_then (ih hplain hscalars) (lays_then (lays_jump hstart) (lays_place hexit))
  | doWhile s c ih =>
    intro hplain hscalars
    rw [compile]
    refine lays_bind (lays_branch rfl) fun start hstart =>
      lays_bind (lays_branch rfl) fun test htest => ?_
    refine lays_bind (lays_branch rfl) fun exit hexit =>
      lays_inLoop htest hexit (lays_then (lays_place hstart) ?_)
    refine lays_then (ih hplain hscalars)
      (lays_then (lays_place htest) (lays_then (lays_exitUnless c hexit) ?_))
    exact lays_then (lays_jump hstart) (lays_place hexit)
  | forLoop init c step s ih =>
    intro hplain hscalars
    obtain ⟨hinit, hs⟩ : init.all ForInit.plain = true ∧ s.plain = true := by
      simpa [plain] using hplain
    obtain ⟨hstart', hstep'⟩ := List.forall_mem_append.mp hscalars
    obtain ⟨hinit', hs'⟩ := List.forall_mem_append.mp hstart'
    rw [compile_forLoop]
    refine lays_then (lays_forStart hfree hdigits hinit hinit')
      (lays_bind (lays_branch rfl) fun start hstart => ?_)
    refine lays_bind (lays_stepLabel hstart step) fun next hnext =>
      lays_bind (lays_branch rfl) fun exit hexit => ?_
    refine lays_inLoop hnext hexit
      (lays_then (lays_place hstart) (lays_then (lays_forTest hexit c) ?_))
    refine lays_then (ih hs hs') (lays_then (lays_forNext hfree hdigits hnext hstep') ?_)
    exact lays_then (lays_jump hstart) (lays_place hexit)
  | block ss ih =>
    intro hplain hscalars
    rw [compile]
    exact lays_compileAll fun s hs => ih s hs (plain_of_mem hs hplain) fun x hx =>
      hscalars x (scalars_of_mem hs hx)
  | call e =>
    intros
    rw [compile]
    exact lays_callStatement e
  | increment x before =>
    intro _ hscalars
    rw [compile]
    exact lays_bump hfree (hdigits x (hscalars x (List.mem_singleton_self x))) .add
  | decrement x before =>
    intro _ hscalars
    rw [compile]
    exact lays_bump hfree (hdigits x (hscalars x (List.mem_singleton_self x))) .sub
  | breakLoop =>
    intros
    rw [compile]
    refine lays_bind lays_get fun k hk => ?_
    split
    · next l _ hl => exact lays_jump (hk.other.loops l (by simp [Compiler.rest, hl])).2
    · exact lays_throw _
  | continueLoop =>
    intros
    rw [compile]
    refine lays_bind lays_get fun k hk => ?_
    split
    · next l _ hl => exact lays_jump (hk.other.loops l (by simp [Compiler.rest, hl])).1
    · exact lays_throw _
  | asm text => exact fun hplain => absurd hplain Bool.false_ne_true
  | hole =>
    intros
    rw [compile]
    exact lays_bind lays_currentFunction fun _ _ => lays_throw _

end Stmt

/-! ### Functions -/

namespace Compile

variable {current : Option String} {names outside : List String}

theorem lays_loadParams (hfree : firstFree names ≤ sp) {xs : List String}
    (hxs : ∀ x ∈ xs, x ∈ names) (i : Nat) :
    Stays (Compiler.Scoped current names outside) (Body (firstFree names)) 0 (loadParams i xs) := by
  induction xs generalizing i with
  | nil => exact lays_return ()
  | cons x xs ih =>
    obtain ⟨hx, hxs⟩ := List.forall_mem_cons.mp hxs
    rw [loadParams]
    refine lays_bind (lays_allocate hx) fun r hr => lays_bind lays_temp fun a ha =>
      lays_then (lays_put rfl ha) ?_
    refine lays_bind lays_temp fun n hn =>
      lays_then (lays_put rfl hn) (lays_then (lays_put rfl ha) ?_)
    exact lays_then (lays_write hfree rfl hr) (ih hxs (i + 1))

theorem lays_finish {A : Compiler → Prop} {top : Nat} : Stays A (Body top) 0 finish := by
  refine lays_bind lays_get fun k _ => lays_ite ?_ (lays_return ())
  exact lays_then (lays_inert rfl) (lays_then (lays_put rfl (by decide)) lays_leave)

end Compile

namespace Func

/-- The names that the code of a function finds in registers and writes. -/
def scalars (outside : List String) (f : Func) : List String :=
  f.params ++ Stmt.scalarsAll outside f.body

/-- A function whose variables have registers of their own below those of the stack and of jumps. -/
structure Plain (outside : List String) (f : Func) : Prop where
  body : Stmt.plainAll f.body = true
  digits : ∀ x ∈ f.scalars outside, registerDigits? x = none
  free : firstFree (f.scalars outside) ≤ sp

/-- The lines of a function behind its label. -/
def inner (f : Func) : Compile Unit := do
  line (.comment ("Function: " ++ f.name))
  let _ ← temp
  loadParams 0 f.params
  modify fun c => { c with returned := false }
  Stmt.compileAll f.body
  finish

variable {f : Func} {names outside : List String}

theorem lays_inner (hf : f.Plain outside) :
    Lays (Compiler.Scoped (some f.name) (f.scalars outside) outside)
    (Body (firstFree (f.scalars outside))) 0 f.inner 0
      fun _ => True := by
  have hbody : ∀ s ∈ f.body, Stays (Compiler.Scoped (some f.name) (f.scalars outside) outside)
      (Body (firstFree (f.scalars outside))) 0 s.compile := fun s hs =>
    s.lays_compile hf.free hf.digits (Stmt.plain_of_mem hs hf.body) fun x hx =>
      List.mem_append_right _ (Stmt.scalars_of_mem hs hx)
  refine lays_then (lays_inert rfl) (lays_then lays_temp ?_)
  refine lays_then (lays_loadParams hf.free (fun x hx => List.mem_append_left _ hx) 0) ?_
  refine lays_then (lays_places fun k => ⟨rfl, rfl, rfl, rfl, rfl, rfl, rfl, rfl⟩) ?_
  exact lays_then (Stmt.lays_compileAll hbody) lays_finish

/-- The compiler behind the label of a function. -/
def opened (f : Func) (k : Compiler) : Compiler :=
  { k.enter f with code := (k.code.push .blank).push (.label (functionLabel f.name)) }

/-- The lines of a function are its label and what stands behind it. -/
theorem lines_eq_inner {k : Compiler}
    (hlinked : ∀ g l, k.functions.get? g = some l → l = functionLabel g) :
    f.lines (k.enter f) = f.inner (f.opened k) := by
  have hlabel : (((k.enter f).functions.get? f.name).getD (functionLabel f.name)) =
      functionLabel f.name := by
    rcases hget : (k.enter f).functions.get? f.name with _ | l
    · rfl
    · exact hlinked _ l hget
  rw [opened, ← hlabel]
  rfl

/-- A function adds its label and a body that keeps to the heights and writes its own variables. -/
theorem compile_body (hf : f.Plain outside) {k k' : Compiler}
    (hk : k.Ready (Compiler.Scoped none names outside)) (hrun : f.compile k = (.ok (), k')) :
    k'.Ready (Compiler.Scoped none names outside) ∧
    ∃ ls, k'.code.toList = k.code.toList ++ (.blank :: .label (functionLabel f.name) :: ls) ∧
      Body (firstFree (f.scalars outside)) 0 k.labelCount ls 0 k'.labelCount := by
  obtain ⟨k₁, hinner, rfl⟩ := compile_eq_ok hrun
  rw [lines_eq_inner hk.functions] at hinner
  have hready : (f.opened k).Ready (Compiler.Scoped (some f.name) (f.scalars outside) outside) :=
    ⟨(by decide : 1 < 10), hk.functions,
      ⟨rfl, .empty, hk.other.outside, hk.other.data, hk.other.loops⟩⟩
  obtain ⟨hk₁, -, ls, hcode, hbody⟩ := lays_inner hf _ _ _ hready hinner
  refine ⟨⟨hk.turning, hk₁.functions, ⟨hk.other.current, hk.other.within, hk₁.other.outside,
    hk₁.other.data, hk₁.other.loops⟩⟩, ls, ?_, hbody⟩
  rw [show (k₁.leave k).code = k₁.code from rfl, hcode]
  simp [opened]

end Func

end WordC
