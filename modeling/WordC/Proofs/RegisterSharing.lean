import WordC.Proofs.FunctionEnds
import WordC.Proofs.RegisterPlaces

/-!
# Which declarations share a register

The compiler passes the marks of a function one after the other, and between them it gives out no
register (`Func.walk`). So each declaration is placed where the marks say. Variables with different
names share a register only if one of them asks for it, but a declaration of a name that already has
a register takes that one, also in an inner block; and names take registers up to the one of the
stack. `registers_apart_iff` says which functions keep all declarations apart whose scopes overlap.
-/

namespace WordC

open Asm Step Compile

/-! ### Steps that give out no register -/

/-- Any lines. -/
def anyLayout : Layout := fun _ _ _ _ _ => True

instance anyLayout.exprLayout : ExprLayout anyLayout where
  nil _ := trivial
  append _ _ := trivial
  put _ _ := trivial
  quiet _ := trivial
  back _ := trivial
  push _ := trivial
  drop _ _ := trivial
  call _ := trivial
  operator _ _ _ := trivial

/-- A compiler inside of a function, with its registers and the globals around it. -/
structure Compiler.At (t : Table Reg) (g : Table Label) (f : String) (k : Compiler) : Prop where
  registers : k.pool.allocated = t
  globals : k.globals = g
  current : k.current = some f

namespace Compile

variable {t : Table Reg} {g : Table Label} {f : String}

/-- A step that gives out no register. -/
abbrev Holds {α : Type} (t : Table Reg) (g : Table Label) (f : String) (x : Compile α) : Prop :=
  Stays (Compiler.At t g f) anyLayout 0 x

theorem holds_line (l : Line) : Holds t g f (line l) := lays_line fun _ => trivial

theorem holds_places {h : Compiler → Compiler}
    (hh : ∀ k, (h k).pool = k.pool ∧ (h k).functions = k.functions ∧ (h k).current = k.current ∧
      (h k).globals = k.globals ∧ (h k).code = k.code ∧ (h k).labelCount = k.labelCount) :
    Holds t g f (modify h) := by
  refine lays_modify (fun k hk => ?_) fun k => (hh k).2.2.2.2
  obtain ⟨hpool, hfunctions, hcurrent, hglobals, -, -⟩ := hh k
  refine ⟨hpool ▸ hk.turning, hfunctions ▸ hk.functions,
    ⟨?_, hglobals.trans hk.other.globals, hcurrent.trans hk.other.current⟩⟩
  exact (congrArg RegPool.allocated hpool).trans hk.other.registers

theorem holds_move (d r : Reg) : Holds t g f (move d r) := lays_ite (holds_line _) (lays_return ())

theorem holds_initTo (d : Reg) (e : Expr) : Holds t g f (initTo d e) :=
  lays_bind (e.lays_compile 0) fun r _ => holds_move d r

theorem holds_dataLine (l : Line) : Holds t g f (dataLine l) :=
  holds_places fun _ => ⟨rfl, rfl, rfl, rfl, rfl, rfl⟩

theorem holds_localValues (l : Label) (es : List Expr) (i : Nat) :
    Holds t g f (localValues l i es) := by
  induction es generalizing i with
  | nil => exact lays_return ()
  | cons e es ih =>
    rw [localValues]
    refine lays_then (holds_dataLine _) ?_
    split
    · exact ih (i + 1)
    · refine lays_bind (e.lays_compile 0) fun v _ => lays_bind lays_temp fun a _ =>
        lays_then (holds_line _) ?_
      refine lays_bind lays_temp fun n _ => lays_then (holds_line _) (lays_then (holds_line _) ?_)
      exact lays_then (holds_line _) (ih (i + 1))

theorem lays_inFunction : Lays (Compiler.At t g f) anyLayout 0 currentFunction 0 (· = some f) :=
  lays_bind lays_get fun _ hk => lays_pure hk.other.current

theorem holds_arrayDecl (d : ArrayDecl) : Holds t g f (arrayDecl d) := by
  unfold arrayDecl
  split
  · refine lays_ite (lays_throw _) (lays_bind lays_inFunction fun current hcurrent => ?_)
    subst hcurrent
    refine lays_bind lays_labelNumber fun n _ =>
      lays_then (holds_dataLine _) (lays_then (holds_localValues _ _ _) ?_)
    refine lays_then (holds_places fun _ => ⟨rfl, rfl, rfl, rfl, rfl, rfl⟩)
      (holds_places fun _ => ?_)
    exact ⟨rfl, rfl, rfl, rfl, rfl, rfl⟩
  · exact lays_throw _

theorem holds_bump (op : AluOp) (x : String) : Holds t g f (bump op x) := by
  refine lays_bind (lays_registerOf? x) fun found _ => ?_
  split
  · exact lays_bind lays_temp fun one _ => lays_then (holds_line _) (holds_line _)
  · exact lays_throw _

theorem holds_leave : Holds t g f leave := by
  refine lays_bind lays_currentFunction fun current _ => lays_ite (holds_line _) ?_
  exact lays_then (holds_line _) (lays_then (holds_line _) (holds_line _))

theorem holds_ret (value : Option Expr) : Holds t g f (ret value) := by
  refine lays_then (holds_places fun _ => ⟨rfl, rfl, rfl, rfl, rfl, rfl⟩) ?_
  split
  · exact lays_bind (Expr.lays_compile _ 0) fun v _ => lays_then (holds_move _ v) holds_leave
  · exact lays_then (holds_line _) holds_leave

theorem holds_asm (text : String) : Holds t g f (asm text) := by
  unfold asm
  induction Text.lines text.toList with
  | nil => exact lays_return ()
  | cons cs css ih => exact lays_then (holds_line _) ih

end Compile

/-! ### What a mark does -/

/-- Inside of a function. -/
abbrev Compiler.InFunction (f : String) (k : Compiler) : Prop := k.Ready fun c => c.current = some f

/-- Later in a function, with the same registers. -/
structure Compiler.Later (f : String) (k k' : Compiler) : Prop where
  ready : k'.InFunction f
  code : k.code.toList <+: k'.code.toList
  registers : k'.pool.allocated = k.pool.allocated
  globals : k'.globals = k.globals

/-- The step of the compiler that a mark stands for. -/
def Mark.Compiled : Mark → Compiler → Compiler → Prop
  | enter, k, k' | leave, k, k' => k' = k
  | param x, k, k' | assigned x, k, k' => ∃ r, allocate x k = (.ok r, k')
  | var d, k, k' => varDecl d k = (.ok (), k')
  | pointer d, k, k' => pointerDecl d k = (.ok (), k')

namespace Compiler.Later

variable {f : String} {k k₁ k' : Compiler}

theorem refl (hk : k.InFunction f) : k.Later f k := ⟨hk, List.prefix_refl _, rfl, rfl⟩

theorem trans (h : k.Later f k₁) (h' : k₁.Later f k') : k.Later f k' :=
  ⟨h'.ready, h.code.trans h'.code, h'.registers.trans h.registers, h'.globals.trans h.globals⟩

theorem wrote (hk : k.InFunction f) (draws labels : Nat) (ls : List Line) :
    k.Later f (k.wrote draws labels ls) where
  ready := hk.wrote draws labels ls
  code := by
    show _ <+: (k.code ++ ls.toArray).toList
    rw [Array.toList_append]
    exact List.prefix_append _ _
  registers := RegPool.skip_allocated _ _
  globals := rfl

theorem openLoop (hk : k.InFunction f) (n : Nat) (labels : LoopLabels) (start : Label) :
    k.Later f (((k.wrote 0 n []).openLoop labels).wrote 0 0 [.label start]) := by
  have hminted : k.Later f (k.wrote 0 n []) := .wrote hk 0 n []
  have hopen : k.Later f ((k.wrote 0 n []).openLoop labels) :=
    ⟨⟨hminted.ready.turning, hk.functions, hk.other⟩, hminted.code, hminted.registers, rfl⟩
  exact hopen.trans (.wrote hopen.ready 0 0 _)

theorem closeLoop (hk : k.InFunction f) (ls : List Line) :
    k.Later f (k.wrote 0 0 ls).closeLoop := by
  have hlater : k.Later f (k.wrote 0 0 ls) := .wrote hk 0 0 ls
  exact ⟨⟨hlater.ready.turning, hk.functions, hk.other⟩, hlater.code, hlater.registers, rfl⟩

theorem of_holds {α : Type} {x : Compile α} {a : α} (hx : ∀ t g, Holds t g f x)
    (hk : k.InFunction f) (h : x k = (.ok a, k')) : k.Later f k' := by
  have hat : k.Ready (Compiler.At k.pool.allocated k.globals f) :=
    ⟨hk.turning, hk.functions, ⟨rfl, rfl, hk.other⟩⟩
  obtain ⟨hk', -, ls, hcode, -⟩ := hx _ _ k a k' hat h
  exact ⟨⟨hk'.turning, hk'.functions, hk'.other.current⟩, hcode ▸ List.prefix_append _ _,
    hk'.other.registers, hk'.other.globals⟩

end Compiler.Later

theorem RegPool.allocate?_eq_some {p p' : RegPool} {x : String} {r : Reg}
    (h : p.allocate? x = some (r, p')) :
    p'.nextTemp = p.nextTemp ∧ (p.allocated.contains x = true ∧ p'.allocated = p.allocated ∨
      p.allocated.contains x = false ∧ 11 + p.allocated.size ≤ sp ∧
      p'.allocated = p.allocated.set x (11 + p.allocated.size)) := by
  unfold allocate? at h
  split at h
  · next r' hr' =>
    cases h
    exact ⟨rfl, .inl ⟨Option.isSome_iff_exists.mpr ⟨r, hr'⟩, rfl⟩⟩
  · next hnone =>
    dsimp only at h
    split at h
    · cases h
    · next hle =>
      cases h
      refine ⟨rfl, .inr ⟨?_, Nat.le_of_not_lt hle, rfl⟩⟩
      rw [Table.contains, hnone]
      rfl

namespace Mark

variable {m : Mark} {x : String} {f : String} {k k' : Compiler}

/-- All registers are below that of jumps. -/
def Bounded (t : Table Reg) : Prop := ∀ x r, t.get? x = some r → r ≤ sp

theorem Bounded.set {t : Table Reg} {r : Reg} (h : Bounded t) (hr : r ≤ sp) (x : String) :
    Bounded (t.set x r) := by
  intro y r' hget
  rw [Table.get?_set] at hget
  split at hget
  · exact Option.some.inj hget ▸ hr
  · exact h y r' hget

/-- What a mark makes of the registers; the other tables stay. -/
structure Changes (m : Mark) (f : String) (k k' : Compiler) : Prop where
  ready : k'.InFunction f
  code : k.code.toList <+: k'.code.toList
  registers : k'.pool.allocated = take k.pool.allocated m
  bounded : Bounded k.pool.allocated → Bounded k'.pool.allocated
  globals : k'.globals = k.globals

theorem Changes.later {k₁ : Compiler} (h : m.Changes f k k₁) (h' : k₁.Later f k') :
    m.Changes f k k' where
  ready := h'.ready
  code := h.code.trans h'.code
  registers := h'.registers.trans h.registers
  bounded hk := by
    rw [h'.registers]
    exact h.bounded hk
  globals := h'.globals.trans h.globals

theorem changes_allocate {r : Reg} (hx : m.name? = some x) (hfixed : m.fixed? = none)
    (hk : k.InFunction f) (h : allocate x k = (.ok r, k')) : m.Changes f k k' := by
  obtain ⟨pool, hpool, rfl⟩ := allocate_eq_ok h
  obtain ⟨hturning, ⟨hcontains, hallocated⟩ | ⟨hcontains, hle, hallocated⟩⟩ :=
    RegPool.allocate?_eq_some hpool
  · refine ⟨⟨hturning ▸ hk.turning, hk.functions, hk.other⟩, List.prefix_refl _, ?_,
      fun hbounded => ?_, rfl⟩
    · rw [take_plain hx hfixed, if_pos hcontains]
      exact hallocated
    · show Bounded pool.allocated
      exact hallocated ▸ hbounded
  · refine ⟨⟨hturning ▸ hk.turning, hk.functions, hk.other⟩, List.prefix_refl _, ?_,
      fun hbounded => ?_, rfl⟩
    · rw [take_plain hx hfixed, hcontains]
      exact hallocated
    · show Bounded pool.allocated
      exact hallocated ▸ hbounded.set hle x

theorem changes_varDecl {d : VarDecl} (hk : k.InFunction f) (h : varDecl d k = (.ok (), k')) :
    (Mark.var d).Changes f k k' := by
  unfold varDecl at h
  rcases hregister : d.register with _ | r
  · simp only [hregister] at h
    have hcurrent : currentFunction k = (.ok (some f), k) :=
      congrArg (fun c => (Except.ok c, k)) hk.other
    rw [bind_ok hcurrent] at h
    have hlocal : localVar d k = (.ok (), k') := h
    obtain ⟨r, k₁, hallocate, h⟩ := bind_eq_ok hlocal
    have hfirst : (Mark.var d).Changes f k k₁ :=
      changes_allocate rfl (by rw [fixed?, hregister]; rfl) hk hallocate
    refine hfirst.later (.of_holds (fun t g => ?_) hfirst.ready h)
    refine lays_then (holds_places fun _ => ⟨rfl, rfl, rfl, rfl, rfl, rfl⟩) ?_
    split
    · exact holds_initTo r _
    · exact holds_line _
  · simp only [hregister] at h
    have hfixed : fixed? (.var d) = some r.val := by rw [fixed?, hregister]; rfl
    obtain ⟨hle, k₁, hk₁, hinit⟩ := registerVar_eq_ok h
    have hfirst : (Mark.var d).Changes f k k₁ := by
      subst hk₁
      exact ⟨⟨hk.turning, hk.functions, hk.other⟩, List.prefix_refl _,
        (take_fixed rfl hfixed _).symm, fun hbounded => hbounded.set hle d.name, rfl⟩
    rcases hinit with ⟨e, -, hinit⟩ | ⟨-, rfl⟩
    · exact hfirst.later (.of_holds (fun _ _ => holds_initTo r.val e) hfirst.ready hinit)
    · exact hfirst

theorem changes_pointerDecl {d : PointerDecl} (hk : k.InFunction f)
    (h : pointerDecl d k = (.ok (), k')) : (Mark.pointer d).Changes f k k' := by
  obtain ⟨r, k₁, hallocate, h⟩ := bind_eq_ok h
  have hfirst : (Mark.pointer d).Changes f k k₁ := changes_allocate rfl rfl hk hallocate
  refine hfirst.later (.of_holds (fun t g => ?_) hfirst.ready h)
  split
  · exact holds_initTo r _
  · exact holds_line _

theorem Compiled.changes (hk : k.InFunction f) (h : m.Compiled k k') : m.Changes f k k' := by
  cases m with
  | enter | leave =>
    cases h
    exact ⟨hk, List.prefix_refl _, rfl, id, rfl⟩
  | param x | assigned x =>
    obtain ⟨r, h⟩ := h
    exact changes_allocate rfl rfl hk h
  | var d => exact changes_varDecl hk h
  | pointer d => exact changes_pointerDecl hk h

end Mark

/-! ### The walk of the compiler along the marks -/

/-- The compiler passes the marks one after the other. -/
inductive Walk (f : String) : List Mark → Compiler → Compiler → Prop
  | nil {k k' : Compiler} : k.Later f k' → Walk f [] k k'
  | cons {m : Mark} {ms : List Mark} {k k₁ k₂ k' : Compiler} :
      k.Later f k₁ → m.Compiled k₁ k₂ → Walk f ms k₂ k' →
      Walk f (m :: ms) k k'

namespace Walk

variable {f : String} {m : Mark} {ms ms' : List Mark} {k k₁ k' : Compiler}

theorem after (h : k.Later f k₁) (hwalk : Walk f ms k₁ k') : Walk f ms k k' := by
  cases hwalk with
  | nil h' => exact .nil (h.trans h')
  | cons h' hm hrest => exact .cons (h.trans h') hm hrest

theorem append (h : Walk f ms k k₁) (h' : Walk f ms' k₁ k') : Walk f (ms ++ ms') k k' := by
  induction h with
  | nil hlater => exact h'.after hlater
  | cons hlater hm _ ih => exact .cons hlater hm (ih h')

theorem before (hwalk : Walk f ms k k₁) (h : k₁.Later f k') : Walk f ms k k' := by
  rw [← List.append_nil ms]
  exact hwalk.append (.nil h)

theorem single (hk : k.InFunction f) (h : m.Compiled k k') : Walk f [m] k k' :=
  .cons (.refl hk) h (.nil (.refl (h.changes hk).ready))

theorem ready (h : Walk f ms k k') : k'.InFunction f := by
  induction h with
  | nil hlater => exact hlater.ready
  | cons _ _ _ ih => exact ih

theorem globals (h : Walk f ms k k') : k'.globals = k.globals := by
  induction h with
  | nil hlater => exact hlater.globals
  | cons hlater hm _ ih => rw [ih, (hm.changes hlater.ready).globals, hlater.globals]

/-- A walk can be taken apart at every mark. -/
theorem split (h : Walk f (ms ++ m :: ms') k k') :
    ∃ k₁ k₂, Walk f ms k k₁ ∧ m.Compiled k₁ k₂ ∧ Walk f ms' k₂ k' := by
  induction ms generalizing k with
  | nil =>
    cases h with
    | @cons _ _ _ k₁ k₂ _ hlater hm hrest => exact ⟨k₁, k₂, .nil hlater, hm, hrest⟩
  | cons m₀ ms ih =>
    cases h with
    | cons hlater hm₀ hrest =>
      obtain ⟨k₁, k₂, hwalk, hm, hrest⟩ := ih hrest
      exact ⟨k₁, k₂, .cons hlater hm₀ hwalk, hm, hrest⟩

/-- The scope around marks changes nothing. -/
theorem wrap (hk : k.InFunction f) (h : Walk f ms k k') :
    Walk f (.enter :: (ms ++ [.leave])) k k' :=
  .cons (.refl hk) rfl (h.append (.single h.ready rfl))

theorem unwrap (h : Walk f (.enter :: (ms ++ [.leave])) k k') : Walk f ms k k' := by
  cases h with
  | cons hlater henter hrest =>
    cases henter
    obtain ⟨k₁, k₂, hwalk, hleave, hnil⟩ := hrest.split
    cases hleave
    cases hnil with
    | nil hlater' => exact (hwalk.after hlater).before hlater'

/-- The registers behind a walk are those that the marks make of the registers before it. -/
theorem registers (h : Walk f ms k k') :
    k'.pool.allocated = ms.foldl Mark.take k.pool.allocated := by
  induction h with
  | nil hlater => exact hlater.registers
  | cons hlater hm _ ih =>
    rw [ih, (hm.changes hlater.ready).registers, hlater.registers]
    rfl

theorem bounded (h : Walk f ms k k') (hk : Mark.Bounded k.pool.allocated) :
    Mark.Bounded k'.pool.allocated := by
  induction h with
  | nil hlater => exact hlater.registers ▸ hk
  | cons hlater hm _ ih => exact ih ((hm.changes hlater.ready).bounded (hlater.registers ▸ hk))

end Walk

/-! ### Statements -/

section Statements

variable {f : String} {k k' : Compiler}

theorem registerOf?_eq_ok {x : String} {found : Option Reg}
    (h : registerOf? x k = (.ok found, k')) :
    k' = k ∧ ((∃ r, k.pool.allocated.get? x = some r ∧ found = some r) ∨
      k.pool.allocated.get? x = none ∧ found.isSome = (registerDigits? x).isSome) := by
  rw [registerOf?, bind_ok (get_apply k)] at h
  rcases hget : k.pool.allocated.get? x with _ | r
  · simp only [hget] at h
    rcases hdigits : registerDigits? x with _ | digits
    · simp only [hdigits] at h
      cases h
      exact ⟨rfl, .inr ⟨rfl, rfl⟩⟩
    · simp only [hdigits] at h
      rcases hn : Text.decimalNumeral? digits with _ | n
      · simp only [hn] at h
        cases h
      · simp only [hn] at h
        cases h
        exact ⟨rfl, .inr ⟨rfl, rfl⟩⟩
  · simp only [hget] at h
    cases h
    exact ⟨rfl, .inl ⟨r, rfl, rfl⟩⟩

theorem allocate_of_get? {x : String} {r : Reg} (h : k.pool.allocated.get? x = some r) :
    allocate x k = (.ok r, k) := by
  have hpool : k.pool.allocate? x = some (r, k.pool) := by rw [RegPool.allocate?, h]
  rw [allocate, bind_ok (get_apply k), hpool]
  rfl

/-- An assignment takes a register for a name that has none. -/
theorem walk_assign {x : String} {e : Expr} (hk : k.InFunction f)
    (h : assign x e k = (.ok (), k')) : Walk f (assignMarks k.globals x) k k' := by
  obtain ⟨v, k₁, he, h⟩ := bind_eq_ok h
  have hlater : k.Later f k₁ := .of_holds (fun _ _ => e.lays_compile 0) hk he
  rw [bind_ok (get_apply k₁)] at h
  refine .after hlater ?_
  rw [← hlater.globals, assignMarks, Table.contains]
  rcases hglobal : k₁.globals.get? x with _ | l
  · simp only [hglobal] at h
    obtain ⟨found, k₂, hfound, h⟩ := bind_eq_ok h
    obtain ⟨rfl, ⟨r, hget, rfl⟩ | ⟨-, hsome⟩⟩ := registerOf?_eq_ok hfound
    · -- a name that has a register keeps it, whether or not there is a mark for it
      have hmove : k₂.Later f k' := .of_holds (fun _ _ => holds_move r v) hlater.ready h
      split
      · exact .nil hmove
      · exact .cons (.refl hlater.ready) ⟨r, allocate_of_get? hget⟩ (.nil hmove)
    · rw [← hsome]
      cases found with
      | some r => exact .nil (.of_holds (fun _ _ => holds_move r v) hlater.ready h)
      | none =>
        obtain ⟨r, k₃, hallocate, h⟩ := bind_eq_ok h
        have hready :=
          (Mark.changes_allocate (m := .assigned x) rfl rfl hlater.ready hallocate).ready
        exact .cons (.refl hlater.ready) ⟨r, hallocate⟩
          (.nil (.of_holds (fun _ _ => holds_move r v) hready h))
  · simp only [hglobal] at h
    exact .nil (.of_holds (fun _ _ => lays_storeLabel l v) hlater.ready h)

theorem Stmt.walk_leaf {s : Stmt} (hleaf : s.isLeaf = true) (hk : k.InFunction f)
    (h : s.compile k = (.ok (), k')) : Walk f (s.marks k.globals) k k' := by
  cases s with
  | decl d =>
    cases d with
    | var d => exact .single hk h
    | pointer d => exact .single hk h
    | array d => exact .nil (.of_holds (fun _ _ => holds_arrayDecl d) hk h)
  | assign x e => exact walk_assign hk h
  | assignIndex a i e => exact .nil (.of_holds (fun _ _ => lays_assignIndex a i e) hk h)
  | assignDeref p e => exact .nil (.of_holds (fun _ _ => lays_assignDeref p e) hk h)
  | ret value => exact .nil (.of_holds (fun _ _ => holds_ret value) hk h)
  | call e => exact .nil (.of_holds (fun _ _ => lays_callStatement e) hk h)
  | increment x before => exact .nil (.of_holds (fun _ _ => holds_bump .add x) hk h)
  | decrement x before => exact .nil (.of_holds (fun _ _ => holds_bump .sub x) hk h)
  | asm text => exact .nil (.of_holds (fun _ _ => holds_asm text) hk h)
  | hole =>
    obtain ⟨current, k₁, -, h⟩ := bind_eq_ok h
    cases h
  | ifThen | ifElse | whileLoop | doWhile | forLoop | block | breakLoop | continueLoop =>
    cases hleaf

theorem LowersStart.walk {init : Option ForInit} {is : List CodePiece}
    (h : LowersStart init k is k') (hk : k.InFunction f) :
    Walk f (init.toList.flatMap (·.marks k.globals)) k k' := by
  cases h with
  | none => exact .nil (.refl hk)
  | @some i _ _ hrun =>
    rw [Option.toList_some, List.flatMap_singleton]
    cases i with
    | declare d => exact Stmt.walk_leaf rfl hk hrun
    | assign x e => exact Stmt.walk_leaf rfl hk hrun

theorem LowersStep.walk {next : Label} {step : Option ForStep} {ss : List CodePiece}
    (h : LowersStep next step k ss k') (hk : k.InFunction f) :
    Walk f (step.toList.flatMap (·.marks k.globals)) k k' := by
  cases h with
  | none => exact .nil (.refl hk)
  | @some st _ _ hrun =>
    rw [Option.toList_some, List.flatMap_singleton]
    have hlater : k.Later f (k.wrote 0 0 [.label next]) := .wrote hk 0 0 _
    cases st with
    | increment x before => exact .after hlater (Stmt.walk_leaf rfl hlater.ready hrun)
    | decrement x before => exact .after hlater (Stmt.walk_leaf rfl hlater.ready hrun)
    | assign x e => exact .after hlater (Stmt.walk_leaf rfl hlater.ready hrun)

theorem Compiler.Later.condition {c : Expr} {r : Reg} {k₁ : Compiler} (hk : k.InFunction f)
    (hc : c.compile k = (.ok r, k₁)) (draws labels : Nat) (ls : List Line) :
    k.Later f (k₁.wrote draws labels ls) := by
  have hlater : k.Later f k₁ := .of_holds (fun _ _ => c.lays_compile 0) hk hc
  exact hlater.trans (.wrote hlater.ready draws labels ls)

theorem LowersTest.later {exit : Label} {c : Option Expr} {ts : List CodePiece}
    (h : LowersTest exit c k ts k') (hk : k.InFunction f) : k.Later f k' := by
  cases h with
  | none => exact .refl hk
  | some hc => exact .condition hk hc _ _ _

theorem Stmt.walk_after {s : Stmt} {k₁ : Compiler}
    (hwalk : k₁.InFunction f → Walk f (s.marks k₁.globals) k₁ k') (h : k.Later f k₁) :
    Walk f (s.marks k.globals) k k' := by
  have hs := (hwalk h.ready).after h
  rwa [h.globals] at hs

/-- The compiler passes the marks of a statement. -/
theorem Lowers.walk {s : Stmt} {ps : List CodePiece} (h : Lowers s k ps k') (hk : k.InFunction f) :
    Walk f (s.marks k.globals) k k' := by
  induction h with
  | leaf hleaf hrun => exact Stmt.walk_leaf hleaf hk hrun
  | breakLoop | continueLoop => exact .nil (.wrote hk 0 0 _)
  | nil => exact .wrap hk (.nil (.refl hk))
  | cons _ _ ihs ihss =>
    -- the rest is a block of its own for the induction, whose scope is put around the whole instead
    have hs := ihs hk
    have hss := (ihss hs.ready).unwrap
    rw [hs.globals] at hss
    exact .wrap hk (hs.append hss)
  | ifThen hc _ _ _ ih =>
    have hs := Stmt.walk_after ih (.condition hk hc 1 2 _)
    exact hs.before (.wrote hs.ready 0 0 _)
  | ifElse hc _ _ _ _ _ ihs iht =>
    have hs := Stmt.walk_after ihs (.condition hk hc 1 2 _)
    have ht := Stmt.walk_after iht (.wrote hs.ready 0 0 _)
    rw [hs.globals] at ht
    exact hs.append (ht.before (.wrote ht.ready 0 0 _))
  | whileLoop _ _ hk₁ hc _ ih =>
    have hstart := hk₁ ▸ Compiler.Later.openLoop hk 2 _ _
    have hs := Stmt.walk_after ih (hstart.trans (.condition hstart.ready hc 0 0 _))
    exact hs.before (.closeLoop hs.ready _)
  | doWhile _ _ _ _ hk₂ hc ih =>
    have hs := Stmt.walk_after ih (.openLoop hk 3 _ _)
    have hnext := hk₂ ▸ Compiler.Later.wrote hs.ready 0 0 _
    have htest : Compiler.Later f _ _ := .of_holds (fun _ _ => Expr.lays_compile _ 0) hnext.ready hc
    exact hs.before ((hnext.trans htest).trans (.closeLoop htest.ready _))
  | @forLoop _ _ _ _ k k₁ k₂ _ _ _ start next exit _ _ _ _ hinit _ hlabel _ htest _ hnext ih =>
    have hwalk := hinit.walk hk
    have hminted : k₁.Later f k₂ := by
      have hone := Compiler.Later.wrote hwalk.ready 0 1 []
      rcases stepLabel_cases hlabel with ⟨-, -, rfl⟩ | ⟨-, -, rfl⟩
      · exact hone
      · exact hone.trans (.wrote hone.ready 0 1 [])
    have hstart := hminted.trans (.openLoop hminted.ready 1 ⟨next, exit⟩ start)
    have hs := Stmt.walk_after ih (hstart.trans (htest.later hstart.ready))
    have hstep := hnext.walk hs.ready
    rw [hs.globals, hwalk.globals] at hstep
    rw [hwalk.globals] at hs
    exact .wrap hk (((hwalk.append hs).append hstep).before (.closeLoop hstep.ready _))

end Statements

/-! ### Functions -/

theorem walk_loadParams {f : String} {xs : List String} {i : Nat} {k k' : Compiler}
    (hk : k.InFunction f) (h : loadParams i xs k = (.ok (), k')) : Walk f (xs.map .param) k k' := by
  induction xs generalizing i k with
  | nil =>
    cases h
    exact .nil (.refl hk)
  | cons x xs ih =>
    obtain ⟨r, k₁, hallocate, h⟩ := bind_eq_ok h
    have hready := (Mark.changes_allocate (m := .param x) rfl rfl hk hallocate).ready
    rw [bind_ok (Compiler.temp_eq _), bind_ok (Compiler.emit_wrote ..),
      bind_ok (Compiler.temp_wrote ..), bind_ok (Compiler.emit_wrote ..),
      bind_ok (Compiler.emit_wrote ..), bind_ok (Compiler.emit_wrote ..)] at h
    exact .cons (.refl hk) ⟨r, hallocate⟩ ((ih (hready.wrote _ _ _) h).after (.wrote hready _ _ _))

theorem holds_finish {t : Table Reg} {g : Table Label} {f : String} : Holds t g f finish := by
  refine lays_bind lays_get fun _ _ => lays_ite ?_ (lays_return ())
  exact lays_then (holds_line _) (lays_then (holds_line _) holds_leave)

/-- Functions are known by their labels. -/
def Compiler.Linked (c : Compiler) : Prop :=
  ∀ g l, c.functions.get? g = some l → l = functionLabel g

namespace Func

variable {f : Func} {c c' : Compiler}

theorem inFunction_enter (hc : c.Linked) : (c.enter f).InFunction f.name :=
  ⟨(by decide : 1 < 10), hc, rfl⟩

theorem walk_opening {k k' : Compiler} (hk : k.InFunction f.name) (h : f.opening k = (.ok (), k')) :
    Walk f.name (f.params.map .param) k k' := by
  rw [opening, bind_ok (line_wrote _ _), bind_ok (Compiler.temp_wrote ..)] at h
  obtain ⟨⟨⟩, k₁, hparams, h⟩ := bind_eq_ok h
  cases h
  have hwalk := walk_loadParams (hk.wrote _ _ _) hparams
  exact (hwalk.after (.wrote hk _ _ _)).before
    ⟨⟨hwalk.ready.turning, hwalk.ready.functions, hwalk.ready.other⟩, List.prefix_refl _, rfl, rfl⟩

/-- The compiler passes the marks of a function. -/
theorem walk (hc : c.Linked) (h : f.compile c = (.ok (), c')) :
    ∃ k, Walk f.name (f.marks c.globals) (c.enter f) k ∧ c' = k.leave c := by
  obtain ⟨k, hlines, rfl⟩ := compile_eq_ok h
  refine ⟨k, ?_, rfl⟩
  have hentry := inFunction_enter (f := f) hc
  have hinner : f.inner ((c.enter f).wrote 0 0
      [.blank, .label (((c.enter f).functions.get? f.name).getD (functionLabel f.name))]) =
      (.ok (), k) := by
    rw [lines, bind_ok (line_wrote _ _), bind_ok (get_apply _),
      bind_ok (Compiler.place_wrote ..)] at hlines
    exact hlines
  rw [inner_eq] at hinner
  obtain ⟨⟨⟩, k₁, hopening, hinner⟩ := bind_eq_ok hinner
  obtain ⟨⟨⟩, k₂, hbody, hfinish⟩ := bind_eq_ok hinner
  obtain ⟨ps, hps⟩ := compileAll_lowers (fun s _ => compile_lowers s) hbody
  have hparams := (walk_opening (hentry.wrote 0 0 _) hopening).after (.wrote hentry 0 0 _)
  have hblock := hps.walk hparams.ready
  rw [hparams.globals] at hblock
  exact (hparams.append hblock).before (.of_holds (fun _ _ => holds_finish) hblock.ready hfinish)

/-- The register in which the compiler places a declaration: the one that its name has behind it. -/
def Places (f : Func) (c c' : Compiler) (pre : List Mark) (m : Mark) (r : Reg) : Prop :=
  ∃ post x k₁ k₂ k, f.marks c.globals = pre ++ m :: post ∧ m.declared? = some x ∧
    Walk f.name pre (c.enter f) k₁ ∧ m.Compiled k₁ k₂ ∧ Walk f.name post k₂ k ∧ c' = k.leave c ∧
    k₂.pool.allocated.get? x = some r

/-- Declarations of the names whose scopes overlap are placed in different registers, and those that
ask for no register are not placed in the registers of calls and returns. -/
structure Apart (f : Func) (c c' : Compiler) (among : String → Prop) : Prop where
  overlapping : ∀ pre m x mid m' x' r r', Mark.Overlap (f.marks c.globals) pre m x mid m' x' →
    among x → among x' → f.Places c c' pre m r → f.Places c c' (pre ++ m :: mid) m' r' → r ≠ r'
  scratch : ∀ pre m x r, m.isPlain = true → m.declared? = some x → among x → f.Places c c' pre m r →
    r ≠ link ∧ r ≠ sp ∧ r ≠ ip

variable {pre mid post : List Mark} {m : Mark} {x : String} {r : Reg}

/-- The table behind a mark, along any walk to it. -/
theorem get?_walk {k₁ k₂ : Compiler} (hwalk : Walk f.name pre (c.enter f) k₁)
    (hm : m.Compiled k₁ k₂) (hx : m.declared? = some x) :
    k₂.pool.allocated.get? x = some (Mark.registerAfter (pre ++ [m]) x) := by
  have htable : k₂.pool.allocated = Mark.table (pre ++ [m]) := by
    rw [(hm.changes hwalk.ready).registers, hwalk.registers, Mark.table_concat]
    rfl
  rw [htable, Mark.get?_table, if_pos (Mark.mem_names_concat_self (Mark.name?_of_declared? hx))]

/-- A declaration is placed where the marks up to it say. -/
theorem places_iff (hc : c.Linked) (h : f.compile c = (.ok (), c'))
    (hms : f.marks c.globals = pre ++ m :: post) (hx : m.declared? = some x) :
    f.Places c c' pre m r ↔ r = Mark.registerAfter (pre ++ [m]) x := by
  constructor
  · rintro ⟨-, x', k₁, k₂, -, -, hx', hwalk, hm, -, -, hget⟩
    cases hx.symm.trans hx'
    rw [get?_walk hwalk hm hx] at hget
    exact (Option.some.inj hget).symm
  · rintro rfl
    obtain ⟨k, hwalk, hc'⟩ := walk hc h
    rw [hms] at hwalk
    obtain ⟨k₁, k₂, hwalk, hm, hrest⟩ := hwalk.split
    exact ⟨post, x, k₁, k₂, k, hms, hx, hwalk, hm, hrest, hc', get?_walk hwalk hm hx⟩

theorem le_sp_of_places (h : f.Places c c' pre m r) : r ≤ sp := by
  obtain ⟨-, x, k₁, k₂, -, -, -, hwalk, hm, -, -, hget⟩ := h
  have hempty : Mark.Bounded (c.enter f).pool.allocated := fun _ _ heq => by cases heq
  exact (hm.changes hwalk.ready).bounded (hwalk.bounded hempty) x r hget

/-- Where a name is placed that no declaration asks a register for. -/
theorem places_iff_of_unfixed (hc : c.Linked) (h : f.compile c = (.ok (), c'))
    (hms : f.marks c.globals = pre ++ m :: post) (hx : m.declared? = some x)
    (hfree : Mark.Unfixed (f.marks c.globals) x) :
    f.Places c c' pre m r ↔ r = 11 + (Mark.names (f.marks c.globals)).idxOf x := by
  have hsplit : f.marks c.globals = (pre ++ [m]) ++ post := by rw [hms, List.append_assoc]; rfl
  have hmem : x ∈ Mark.names (pre ++ [m]) := Mark.mem_names_concat_self (Mark.name?_of_declared? hx)
  rw [places_iff hc h hms hx, Mark.registerAfter_of_unfixed hsplit hmem hfree]

theorem places_overlap (hc : c.Linked) (h : f.compile c = (.ok (), c')) {m' : Mark} {x' : String}
    (hoverlap : Mark.Overlap (f.marks c.globals) pre m x mid m' x')
    (hx : Mark.Unfixed (f.marks c.globals) x) (hx' : Mark.Unfixed (f.marks c.globals) x') :
    (∀ r, f.Places c c' pre m r ↔ r = 11 + (Mark.names (f.marks c.globals)).idxOf x) ∧
      ∀ r, f.Places c c' (pre ++ m :: mid) m' r ↔
      r = 11 + (Mark.names (f.marks c.globals)).idxOf x' := by
  obtain ⟨post, hms⟩ := hoverlap.place
  have hms' : f.marks c.globals = (pre ++ m :: mid) ++ m' :: post := by
    rw [hms, List.append_assoc]; rfl
  exact ⟨fun _ => places_iff_of_unfixed hc h hms hoverlap.first hx, fun _ =>
    places_iff_of_unfixed hc h hms' hoverlap.second hx'⟩

/-- Such names are kept apart, unless one is declared again in an inner block, and as long as there
are registers for them. -/
theorem apart_iff_of_unfixed (hc : c.Linked)
    (h : f.compile c = (.ok (), c')) {among : String → Prop}
    (hfree : ∀ x, among x → Mark.Unfixed (f.marks c.globals) x) : f.Apart c c' among ↔
    (∀ pre m mid m' x, Mark.Overlap (f.marks c.globals) pre m x mid m' x → ¬among x) ∧
      ∀ m ∈ f.marks c.globals, m.isPlain = true → ∀ x, m.declared? = some x → among x →
        (Mark.names (f.marks c.globals)).idxOf x < 18 := by
  constructor
  · intro hapart
    refine ⟨fun pre m mid m' x hoverlap hx => ?_, fun m hm hplain x hx hamong => ?_⟩
    · obtain ⟨hfirst, hsecond⟩ := places_overlap hc h hoverlap (hfree x hx) (hfree x hx)
      exact hapart.overlapping _ _ _ _ _ _ _ _ hoverlap hx hx ((hfirst _).mpr rfl)
        ((hsecond _).mpr rfl) rfl
    · obtain ⟨pre, post, hms⟩ := List.append_of_mem hm
      have hplaces := (places_iff_of_unfixed hc h hms hx (hfree x hamong)).mpr rfl
      -- the compiler gives out no register above that of the stack, so two are left to be ruled out
      have hle : 11 + (Mark.names (f.marks c.globals)).idxOf x ≤ 30 := le_sp_of_places hplaces
      obtain ⟨hlink, hsp, -⟩ := hapart.scratch _ _ _ _ hplain hx hamong hplaces
      have hlink : 11 + (Mark.names (f.marks c.globals)).idxOf x ≠ 29 := hlink
      have hsp : 11 + (Mark.names (f.marks c.globals)).idxOf x ≠ 30 := hsp
      omega
  · rintro ⟨hredeclared, hfew⟩
    refine ⟨fun pre m x mid m' x' r r' hoverlap hx hx' hr hr' heq =>
      ?_, fun pre m x r hplain hx hamong hr => ?_⟩
    · obtain ⟨hfirst, hsecond⟩ := places_overlap hc h hoverlap (hfree x hx) (hfree x' hx')
      have hnumber :=
        Nat.add_left_cancel (((hfirst r).mp hr).symm.trans (heq.trans ((hsecond r').mp hr')))
      have hmem : x ∈ Mark.names (f.marks c.globals) := by
        obtain ⟨post, hms⟩ := hoverlap.place
        rw [Mark.mem_names, hms]
        exact ⟨m, List.mem_append_right _ List.mem_cons_self,
          Mark.name?_of_declared? hoverlap.first⟩
      have hname : x = x' := (List.idxOf_inj hmem).mp hnumber
      subst hname
      exact hredeclared _ _ _ _ _ hoverlap hx
    · obtain ⟨post, -, -, -, -, hms, -⟩ := id hr
      rw [places_iff_of_unfixed hc h hms hx (hfree x hamong)] at hr
      have hlt := hfew m (hms ▸ List.mem_append_right _ List.mem_cons_self) hplain x hx hamong
      have hlink : r < link := hr ▸ Nat.add_lt_add_left hlt 11
      exact ⟨Nat.ne_of_lt hlink, Nat.ne_of_lt (Nat.lt_trans hlink (by decide)),
        Nat.ne_of_lt (Nat.lt_trans hlink (by decide))⟩

end Func

/-! ### Programs -/

theorem Func.functions_compile {f : Func} {c c' : Compiler} (h : f.compile c = (.ok (), c')) :
    c'.functions = c.functions := by
  obtain ⟨k, hlines, rfl⟩ := compile_eq_ok h
  exact (f.keeps_lines.extends hlines).functions

theorem functions_functionAll {fs : List Func} {k k' : Compiler}
    (h : functionAll fs k = (.ok (), k')) : k'.functions = k.functions := by
  induction fs generalizing k with
  | nil =>
    cases h
    rfl
  | cons f fs ih =>
    obtain ⟨⟨⟩, k₁, hfirst, hrest⟩ := bind_eq_ok h
    exact (ih hrest).trans (Func.functions_compile hfirst)

theorem functions_mainLines {main : Option Func} {k k' : Compiler}
    (h : mainLines main k = (.ok (), k')) : k'.functions = k.functions := by
  cases main with
  | none =>
    cases h
    rfl
  | some f =>
    rw [Program.mainLines_some] at h
    rw [Func.functions_compile h]
    rfl

theorem Program.Compiles.linked {p : Program} {includes : List String} {f : Func} {c c' : Compiler}
    (h : p.Compiles includes f c c') : c.Linked := by
  unfold Compiler.Linked
  obtain ⟨-, ⟨-, h⟩ | ⟨fs, gs, -, h⟩⟩ := h
  · obtain ⟨⟨⟩, k, hfront, h⟩ := bind_eq_ok h
    rw [bind_ok (line_wrote _ _), line_wrote] at h
    cases h
    exact (between_front hfront).ready.functions
  · obtain ⟨⟨⟩, k, hfront, h⟩ := bind_eq_ok h
    obtain ⟨⟨⟩, k₁, hmain, hothers⟩ := bind_eq_ok h
    rw [functions_functionAll hothers, functions_mainLines hmain]
    exact (between_front hfront).ready.functions

/-- Where the declarations of a function are placed, and which are kept apart. -/
theorem registers_apart_iff {p : Program} {includes : List String} {f : Func} {c c' : Compiler}
    (h : p.Compiles includes f c c') :
    (∀ pre m post x, f.marks c.globals = pre ++ m :: post → m.declared? = some x →
      (∀ r, f.Places c c' pre m r ↔ r = Mark.registerAfter (pre ++ [m]) x) ∧
      Mark.registerAfter (pre ++ [m]) x < ip) ∧
    -- names that no declaration of the function asks a register for
    ∀ among : String → Prop, (∀ x, among x → Mark.Unfixed (f.marks c.globals) x) →
      (f.Apart c c' among ↔
        (∀ pre m mid m' x, Mark.Overlap (f.marks c.globals) pre m x mid m' x → ¬among x) ∧
        ∀ m ∈ f.marks c.globals, m.isPlain = true → ∀ x, m.declared? = some x → among x →
          (Mark.names (f.marks c.globals)).idxOf x < 18) := by
  refine ⟨fun pre m post x hms hx => ?_, fun among hfree =>
    Func.apart_iff_of_unfixed h.linked h.1 hfree⟩
  have hplaces {r : Reg} := Func.places_iff h.linked h.1 (r := r) hms hx
  exact ⟨fun r => hplaces, Nat.lt_succ_of_le (Func.le_sp_of_places (hplaces.mpr rfl))⟩

/-- A program of a main function alone. -/
def onlyMain (f : Func) : Program where
  functions := [f]

/-- The compiler before the main function of such a program. -/
def beforeMain (f : Func) : Compiler :=
  ((onlyMain f).link (Compiler.wrote {} 0 0 (headerLines []))).wrote 0 0
    [.directive "entry main", .blank]

def behindMain (f : Func) : Compiler := (f.compile (beforeMain f)).2

theorem onlyMain_compiles {f : Func} (hmain : (onlyMain f).mainFunction? = some f)
    (hok : (f.compile (beforeMain f)).1.isOk = true) :
    (onlyMain f).Compiles [] f (beforeMain f) (behindMain f) := by
  refine ⟨?_, .inl ⟨hmain, ?_⟩⟩
  · rcases hrun : f.compile (beforeMain f) with ⟨_ | _, c'⟩
    · rw [hrun] at hok
      cases hok
    · rw [behindMain, hrun]
  · have hfront : (onlyMain f).front [] {} =
        (.ok (), (onlyMain f).link (Compiler.wrote {} 0 0 (headerLines []))) := by
      rw [Program.front, bind_ok (header_wrote _ _)]
      rfl
    rw [bind_ok hfront, bind_ok (line_wrote _ _), line_wrote, Compiler.wrote_wrote]
    rfl

/-- `uint32 x = 1; for (uint32 i = 3; i; i--) { uint32 y = i; } { uint32 z = x; } return x;` -/
def separate : Func where
  name := "main"
  params := []
  body := [.decl (.var { name := "x", init := some (.literal 1) }),
    .forLoop (some (.declare { name := "i", init := some (.literal 3) })) (some (.name "i"))
    (some (.decrement "i" false))
      (.block [.decl (.var { name := "y", init := some (.name "i") })]),
    .block [.decl (.var { name := "z", init := some (.name "x") })], .ret (some (.name "x"))]

theorem separate_apart :
    (onlyMain separate).Compiles [] separate (beforeMain separate) (behindMain separate) ∧
    separate.Apart (beforeMain separate) (behindMain separate) fun _ => True := by
  have hcompiles := onlyMain_compiles (f := separate) rfl (by decide +kernel)
  have hfree : ∀ m ∈ separate.marks (beforeMain separate).globals, m.fixed? = none := by
    decide +kernel
  have honce : ((separate.marks (beforeMain separate).globals).filterMap Mark.declared?).Nodup := by
    decide +kernel
  have hfew : (Mark.names (separate.marks (beforeMain separate).globals)).length < 18 := by
    decide +kernel
  refine ⟨hcompiles,
    ((registers_apart_iff hcompiles).2 _ fun _ _ m hm _ => hfree m hm).mpr ⟨?_, ?_⟩⟩
  · intro pre m mid m' x hoverlap
    exact absurd rfl (hoverlap.ne_of_nodup honce)
  · intro m _ _ x _ _
    exact Nat.lt_of_le_of_lt List.idxOf_le_length hfew

def outerX : VarDecl where
  name := "x"
  init := some (.literal 10)

def innerX : VarDecl where
  name := "x"
  init := some (.literal 20)

/-- `uint32 x = 10; { uint32 x = 20; } return x;` -/
def redeclared : Func where
  name := "main"
  params := []
  body := [.decl (.var outerX), .block [.decl (.var innerX)], .ret (some (.name "x"))]

/-- Both declarations are placed in `r11`, so the inner one overwrites the outer one. -/
theorem redeclared_shares :
    (onlyMain redeclared).Compiles [] redeclared (beforeMain redeclared) (behindMain redeclared) ∧
    Mark.Overlap (redeclared.marks (beforeMain redeclared).globals) [.enter]
    (.var outerX) "x" [.enter] (.var innerX) "x" ∧
    redeclared.Places (beforeMain redeclared) (behindMain redeclared) [.enter] (.var outerX) 11 ∧
    redeclared.Places (beforeMain redeclared) (behindMain redeclared) [.enter, .var outerX,
      .enter] (.var innerX) 11 := by
  have hcompiles := onlyMain_compiles (f := redeclared) rfl (by decide +kernel)
  have hms : redeclared.marks (beforeMain redeclared).globals =
    [.enter, .var outerX, .enter, .var innerX, .leave, .leave] := rfl
  refine ⟨hcompiles, ⟨⟨[.leave, .leave], hms⟩, rfl, rfl, 1, rfl, fun _ => Nat.one_pos⟩, ?_, ?_⟩
  · exact (Func.places_iff hcompiles.linked hcompiles.1 hms rfl).mpr (by decide +kernel)
  · exact (Func.places_iff hcompiles.linked hcompiles.1 hms rfl).mpr (by decide +kernel)

end WordC
