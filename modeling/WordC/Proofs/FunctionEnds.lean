import WordC.Proofs.CallerState
import WordC.Proofs.Endings

/-!
# Where functions end

The code of a function is the code of its body, and behind it a return of zero if no return stands
anywhere in the body. So there are functions whose code can be left behind its last line, into
whatever comes next: those with a return in the body and with a way through the body that meets
none. `function_end_reached_iff` says that there are no others. In a function without a return the
end of the body leads to the return of zero.
-/

namespace WordC

open Asm Step Compile

/-! ### The lines of a function -/

/-- What stands behind the body of a function. -/
def closingLines (f : String) : List Line :=
  .comment "Implicit return 0" :: .instr (.mov result (.imm 0)) :: leaveLines f

namespace Func

/-- A return stands somewhere in the body. -/
def returns (f : Func) : Bool := Stmt.returnsAll f.body

/-- The body comes to its end for some answers of its conditions. -/
def Completes (f : Func) : Prop :=
  ∃ answers seen, ((Stmt.block f.body).behaviour answers).ends false seen

/-- The lines behind the body. -/
def closing (f : Func) : List Line := if f.returns then [] else closingLines f.name

theorem completes_iff {f : Func} : f.Completes ↔ (Stmt.exitsAll f.body).ends = true := by
  rw [Completes, ← Stmt.ends_iff, Stmt.exits]

/-- What a function does before its body. -/
def opening (f : Func) : Compile Unit := do
  line (.comment ("Function: " ++ f.name))
  let _ ← temp
  loadParams 0 f.params
  modify fun c => { c with returned := false }

theorem keeps_opening (f : Func) : f.opening.Keeps := by
  refine keeps_bind (keeps_line _) fun _ => keeps_bind keeps_temp fun _ =>
    keeps_bind (keeps_loadParams f.params 0) fun _ => ?_
  exact keeps_places fun _ => ⟨rfl, rfl, rfl, rfl, rfl, rfl, rfl⟩

theorem inner_eq (f : Func) : f.inner = (do
    f.opening
    Stmt.compileAll f.body
    finish) := by
  simp only [inner, opening, bind_assoc]

end Func

namespace Compile

variable {f : Option String} {b : Bool}

theorem Keeps.extends {α : Type} {x : Compile α} (hx : x.Keeps) {a : α} {k k' : Compiler}
    (h : x k = (.ok a, k')) : k.Extends k' := by
  have hkept := hx k
  rwa [h] at hkept

theorem crossing_comment (text : String) (m : Nat) : Crossing m [.comment text] m :=
  .single (fun _ _ heq => by cases heq) fun _ _ _ hl => moves_goesOn hl trivial

theorem passes_loadParams (xs : List String) (i : Nat) :
    Passes f b (loadParams i xs) fun _ => True := by
  induction xs generalizing i with
  | nil => exact lays_return ()
  | cons x xs ih =>
    rw [loadParams]
    refine lays_bind (passes_allocate x) fun r hr => lays_bind lays_temp fun a ha =>
      lays_then (lays_put rfl ha) ?_
    refine lays_bind lays_temp fun n hn =>
      lays_then (lays_put rfl hn) (lays_then (lays_put rfl ha) ?_)
    exact lays_then (passes_write rfl hr) (ih (i + 1))

theorem passes_opening (f : Func) : Passes (some f.name) false f.opening fun _ => True := by
  refine lays_then (lays_line fun _ => crossing_comment _ _)
    (lays_then lays_temp (lays_then (passes_loadParams f.params 0) ?_))
  refine lays_modify (fun k hk => ?_) fun k => ⟨rfl, rfl⟩
  exact ⟨hk.turning, hk.functions, ⟨hk.other.current, hk.other.registers, rfl⟩⟩

theorem line_wrote (k : Compiler) (l : Line) : line l k = (.ok (), k.wrote 0 0 [l]) := by
  show (Except.ok (), { k with code := k.code.push l }) = _
  simp [Compiler.wrote, RegPool.skip]

theorem finish_eq {f : String} {b : Bool} {k : Compiler}
    (hk : k.Ready (Compiler.Inside (some f) b)) :
    finish k = (.ok (), k.wrote 0 0 (if b then [] else closingLines f)) := by
  have hreturned : k.returned = b := hk.other.returned
  have hcurrent : k.current = some f := hk.other.current
  unfold finish
  rw [bind_ok (get_apply k), hreturned]
  cases b with
  | true => exact congrArg (Prod.mk _) k.wrote_nothing.symm
  | false =>
    show (line (.comment "Implicit return 0") >>= fun _ => emit (.mov result (.imm 0)) >>=
      fun _ => leave) k = _
    rw [bind_ok (line_wrote _ _), bind_ok (Compiler.emit_wrote ..)]
    have hleave := leave_eq
      (k := k.wrote 0 0 [.comment "Implicit return 0", .instr (.mov result (.imm 0))]) hcurrent
    rw [Compiler.wrote_wrote] at hleave
    exact hleave

end Compile

section Closing

variable {code : List Line} {s : Cpu} {f : String} {loops : List LoopLabels}

theorem routes_closingLines (m : Nat) :
    Routes ⟨false, false, false⟩ loops m (closingLines f) m := by
  have hcomment := crossing_comment "Implicit return 0" m
  have hzero : Crossing m (.comment "Implicit return 0" :: [.instr (.mov result (.imm 0))]) m :=
    hcomment.append (.put rfl (by decide))
  exact (Routes.of_crossing hzero).seq (routes_leaveLines f loops m)

theorem Func.routes_closing (f : Func) (loops : List LoopLabels) (m : Nat) :
    Routes ⟨f.returns, false, false⟩ loops m f.closing m := by
  unfold Func.closing
  cases f.returns with
  | true => exact .of_crossing (.nil (Nat.le_refl m))
  | false => exact routes_closingLines m

/-- Behind the body the processor comes to the last line of the function with zero for the result:
`halt` in the main function, otherwise the return to the address on top of the stack, which is taken
off. -/
theorem leads_closingLines (h : Placed code s.pc (closingLines f)) : ∃ t, Cpu.Leads code s t ∧
    t.pc + 1 = s.pc + (closingLines f).length ∧ t.regs result = 0 ∧ t.memory = s.memory ∧
      if f = "main" then code[t.pc]? = some (.instr .halt)
      else code[t.pc]? = some returnLine ∧ t.regs link = s.memory (s.regs sp) ∧
      t.regs sp = s.regs sp + 1 := by
  have hcomment : Cpu.Leads code s s.next := by
    refine .of_step fun input => ?_
    unfold Cpu.step
    rw [h.head]
  have hzero : Cpu.Leads code s.next (s.next.setReg result 0).next := by
    refine .of_step fun input => ?_
    rw [Cpu.step_instr (s := s.next) h.tail.head]
    rfl
  have hleave : Placed code (s.pc + 2) (leaveLines f) := h.tail.tail
  unfold leaveLines at hleave
  by_cases hf : f = "main"
  · rw [if_pos hf] at hleave
    refine ⟨_, hcomment.trans hzero, ?_, rfl, rfl, ?_⟩
    · simp [closingLines, leaveLines, hf]
    · rw [if_pos hf]
      exact hleave.head
  · rw [if_neg hf] at hleave
    let r := (s.next.setReg result 0).next
    let u := (r.setReg link (s.memory (s.regs sp))).next
    have hload : Cpu.Leads code r u := by
      refine .of_step fun input => ?_
      rw [Cpu.step_instr (s := r) hleave.head]
      rfl
    have hpop : Cpu.Leads code u (u.setReg sp (s.regs sp + 1)).next := by
      refine .of_step fun input => ?_
      rw [Cpu.step_instr (s := u) hleave.tail.head]
      rfl
    refine ⟨_, ((hcomment.trans hzero).trans hload).trans hpop, ?_, rfl, rfl, ?_⟩
    · simp [r, u, closingLines, leaveLines, hf]
    · rw [if_neg hf]
      exact ⟨hleave.tail.tail.head, rfl, rfl⟩

end Closing

/-! ### A function in a listing -/

/-- The lines of a function in a listing: its label at `a`, the end of its body at `e`, and behind
the lines there its own end at `b`. -/
structure Func.StandsAt (f : Func) (code : List Line) (a e b : Nat) : Prop where
  entry : code[a]? = some (.label (functionLabel f.name))
  lt : a < e
  body : Leaves code a e fun q => f.Completes ∧ q = e
  closing : Placed code e f.closing
  last : Leaves code e b fun q => f.returns = true ∧ q = b
  ends : e + f.closing.length = b

namespace Func.StandsAt

variable {f : Func} {code : List Line} {a e b : Nat}

/-- A function can be left at its end only, if a return stands in its body and its body comes to its
end. -/
theorem leaves (h : f.StandsAt code a e b) :
    Leaves code a b fun q => (f.returns = true ∧ f.Completes) ∧ q = b := by
  have hlt := h.lt
  have hend := h.ends
  refine h.body.append (fun _ => h.last) (by omega) (by omega) (fun q => ?_) (by omega)
  simp only [and_true]
  constructor
  · rintro ⟨⟨hreturns, hcompletes⟩, hq⟩
    exact .inr ⟨hcompletes, hreturns, hq⟩
  · rintro (⟨⟨-, hq⟩, hne⟩ | ⟨hcompletes, hreturns, hq⟩)
    · exact absurd hq hne
    · exact ⟨⟨hreturns, hcompletes⟩, hq⟩

end Func.StandsAt

/-! ### The compiler between functions -/

/-- The compiler between two functions: all labels have been given their numbers. -/
structure Compiler.Between (k : Compiler) : Prop where
  ready : k.Ready (Compiler.Inside none false)
  numbered : Numbered 0 k.code.toList k.labelCount
  loops : k.loops = []

/-- Outside of all loops a statement is left at its end. -/
theorem Exits.out_nil {x : Exits} {code : List Line} {behind q : Nat} :
    x.Out code [] behind q ↔ x.ends = true ∧ q = behind := by
  refine ⟨fun h => h.resolve_right ?_, .inl⟩
  rintro ⟨l, heq, -⟩
  cases heq

theorem Exits.atEnd_andThen (x : Exits) : atEnd.andThen x = x := by
  simp [andThen, atEnd]

theorem Stmt.compileAll_routes {f : String} {ss : List Stmt} {k k' : Compiler}
    (hk : k.Ready (Compiler.Inside (some f) false)) (hsteady : Stmt.steadyAll ss = true)
    (h : Stmt.compileAll ss k = (.ok (), k')) :
    k'.Ready (Compiler.Inside (some f) (Stmt.returnsAll ss)) ∧
      ∃ ls, k'.code.toList = k.code.toList ++ ls ∧
      Routes (Stmt.exitsAll ss) k.loops k.labelCount ls k'.labelCount := by
  obtain ⟨ps, hps⟩ := compileAll_lowers (fun s _ => compile_lowers s) h
  obtain ⟨hk', hroutes⟩ := hps.routes false hk hsteady
  rw [Stmt.returns, Bool.false_or] at hk'
  rw [Stmt.exits] at hroutes
  exact ⟨hk', _, hps.segment.code, hroutes⟩

theorem entry_ne_minted (f : String) (stem : Stem) (n : Nat) :
    Line.label (functionLabel f) ≠ .label (.minted stem n) := by
  intro heq
  have hentry := isEntry_functionLabel f
  rw [Line.label.inj heq] at hentry
  cases hentry

namespace Func

variable {f : Func} {k k' : Compiler}

theorem inner_routes (hk : k.Ready (Compiler.Inside (some f.name) false)) (hloops : k.loops = [])
    (hsteady : Stmt.steadyAll f.body = true) (h : f.inner k = (.ok (), k')) :
    k'.Ready (Compiler.Inside (some f.name) f.returns) ∧
    ∃ ls, k'.code.toList = k.code.toList ++ (ls ++ f.closing) ∧
      Routes (Stmt.exitsAll f.body) [] k.labelCount ls k'.labelCount := by
  rw [inner_eq] at h
  obtain ⟨⟨⟩, k₁, hopening, h⟩ := bind_eq_ok h
  obtain ⟨⟨⟩, k₂, hbody, hfinish⟩ := bind_eq_ok h
  obtain ⟨hk₁, -, xs, hxs, hcross⟩ := passes_opening f _ _ _ hk hopening
  obtain ⟨hk₂, ys, hys, hroutes⟩ := Stmt.compileAll_routes hk₁ hsteady hbody
  rw [finish_eq hk₂] at hfinish
  cases hfinish
  rw [(f.keeps_opening.extends hopening).loops.trans hloops] at hroutes
  refine ⟨hk₂.wrote _ _ _, xs ++ ys, ?_, ?_⟩
  · show (k₂.code ++ _).toList = _
    rw [Array.toList_append, hys, hxs]
    simp only [List.append_assoc]
    rfl
  · have hall := (Routes.of_crossing hcross).seq hroutes
    rwa [Exits.atEnd_andThen] at hall

theorem compile_routes (hk : k.Between) (hsteady : Stmt.steadyAll f.body = true)
    (hrun : f.compile k = (.ok (), k')) : k'.Between ∧ ∃ ls, k'.code.toList =
    k.code.toList ++ (.blank :: .label (functionLabel f.name) :: (ls ++ f.closing)) ∧
      Routes (Stmt.exitsAll f.body) [] k.labelCount ls k'.labelCount := by
  obtain ⟨k₁, hlines, rfl⟩ := compile_eq_ok hrun
  have hinner := lines_eq_inner hk.ready.functions ▸ hlines
  have hready : (f.opened k).Ready (Compiler.Inside (some f.name) false) :=
    ⟨(by decide : 1 < 10), hk.ready.functions,
      ⟨rfl, fun _ _ heq => (by cases heq), hk.ready.other.returned⟩⟩
  obtain ⟨hk₁, ls, hcode, hroutes⟩ := inner_routes hready hk.loops hsteady hinner
  have hall : k₁.code.toList = k.code.toList ++
      (.blank :: .label (functionLabel f.name) :: (ls ++ f.closing)) := by
    rw [hcode]
    simp [opened]
  refine ⟨⟨⟨hk.ready.turning, hk₁.functions,
    ⟨hk.ready.other.current, hk.ready.other.registers, rfl⟩⟩, ?_, ?_⟩, ls, hall, hroutes⟩
  · show Numbered 0 k₁.code.toList k₁.labelCount
    rw [hall]
    have hbody := hroutes.toNumbered.append (f.routes_closing [] _).toNumbered
    exact hk.numbered.append
      (.line (fun _ _ heq => by cases heq) (.line (entry_ne_minted f.name) hbody))
  · exact (f.keeps_lines.extends hlines).loops.trans hk.loops

/-- The lines of a function in any listing that begins with them. -/
theorem standsAt (hk : k.Between) (hsteady : Stmt.steadyAll f.body = true)
    (hrun : f.compile k = (.ok (), k')) {code : List Line} (hcode : k'.code.toList <+: code) :
    ∃ e, f.StandsAt code (k.code.size + 1) e k'.code.size := by
  obtain ⟨-, ls, hlines, hroutes⟩ := compile_routes hk hsteady hrun
  obtain ⟨rest, rfl⟩ := hcode
  have hstands : Stands (k'.code.toList ++ rest) k.code.size k.labelCount
      (.blank :: .label (functionLabel f.name) :: (ls ++ f.closing)) := by
    rw [hlines, List.append_assoc, ← Array.length_toList]
    refine ⟨?_, fun stem n hstem hn => ?_⟩
    · rw [Placed, List.drop_left]
      exact List.prefix_append _ _
    · rw [List.take_left]
      exact hk.numbered.not_mem stem n hstem (.inr hn)
  have hlabel := hstands.tail fun _ _ heq => by cases heq
  have hbody := hlabel.tail fun stem n heq => absurd heq (entry_ne_minted f.name stem n)
  have hclosing := hbody.behind hroutes.toNumbered
  have hsize : k'.code.size = k.code.size + 1 + 1 + ls.length + f.closing.length := by
    rw [← Array.length_toList, hlines]
    simp only [List.length_append, List.length_cons, Array.length_toList]
    omega
  have htargets {a b : Nat} : Targets (k'.code.toList ++ rest) [] a b := fun _ heq => by cases heq
  have hinside := (hroutes.leaves _ _ hbody.front htargets).congr fun _ => Exits.out_nil
  have hlast := ((f.routes_closing [] _).leaves _ _ hclosing htargets).congr fun _ => Exits.out_nil
  refine ⟨k.code.size + 1 + 1 + ls.length, hlabel.head, by omega, ?_,
    hclosing.placed, ?_, hsize.symm⟩
  · simp only [completes_iff]
    exact (leaves_label hlabel.head).prepend hinside (by omega) (by omega) (by omega)
  · rw [hsize]
    exact hlast

end Func

/-! ### Programs -/

namespace Program

variable {p : Program} {includes : List String} {f : Func} {k k' c c' : Compiler}
  {code : Array Line}

/-- All functions of a program are known by their labels. -/
def link (p : Program) (c : Compiler) : Compiler :=
  { c with
    functions := p.functions.foldl (fun t f => t.set f.name (functionLabel f.name)) c.functions }

/-- What comes before all functions. -/
def front (p : Program) (includes : List String) : Compile Unit := do
  header includes
  modify p.link
  globalAll p.globals

/-- The functions that have code: the main function and those with other names. -/
def compiled (p : Program) : List Func := p.mainFunction?.toList ++ p.otherFunctions

/-- The step of compiling a program in which a function is compiled. -/
def Compiles (p : Program) (includes : List String) (f : Func) (c c' : Compiler) : Prop :=
  f.compile c = (.ok (), c') ∧
    (p.mainFunction? = some f ∧
        (do p.front includes; line (.directive "entry main"); line .blank : Compile Unit)
        {} = (.ok (), c) ∨
      ∃ fs gs, p.otherFunctions = fs ++ f :: gs ∧
        (do p.front includes; mainLines p.mainFunction?; functionAll fs : Compile Unit)
        {} = (.ok (), c))

theorem listing_eq_ok (h : p.listing includes = .ok code) :
    ∃ k₁ k₂ k₃, p.front includes {} = (.ok (), k₁) ∧ mainLines p.mainFunction? k₁ = (.ok (), k₂) ∧
    functionAll p.otherFunctions k₂ = (.ok (), k₃) ∧ code = (joinData k₃).code := by
  obtain ⟨k, hcompile, rfl⟩ := compile_of_listing h
  rw [compile_eq] at hcompile
  obtain ⟨⟨⟩, k₀, hempty, hcompile⟩ := bind_eq_ok hcompile
  cases hempty
  obtain ⟨⟨⟩, k₁, hheader, hcompile⟩ := bind_eq_ok hcompile
  obtain ⟨⟨⟩, k₂, hfunctions, hcompile⟩ := bind_eq_ok hcompile
  cases hfunctions
  obtain ⟨⟨⟩, k₃, hglobals, hcompile⟩ := bind_eq_ok hcompile
  obtain ⟨⟨⟩, k₄, hmain, hcompile⟩ := bind_eq_ok hcompile
  obtain ⟨⟨⟩, k₅, hothers, hdata⟩ := bind_eq_ok hcompile
  cases hdata
  exact ⟨k₃, k₄, k₅, (bind_ok hheader).trans hglobals, hmain, hothers, rfl⟩

theorem functionAll_append (fs gs : List Func) :
    functionAll (fs ++ gs) = (do functionAll fs; functionAll gs) := by
  induction fs with
  | nil => rfl
  | cons f fs ih => simp only [List.cons_append, functionAll, ih, bind_assoc]

end Program

/-! The compiler goes from function to function. -/

section Between

variable {p : Program} {includes : List String} {f : Func} {k k' : Compiler}

theorem Compiler.Between.wrote {ls : List Line} (hk : k.Between)
    (h : ∀ stem n, .label (.minted stem n) ∉ ls) : (k.wrote 0 0 ls).Between where
  ready := hk.ready.wrote 0 0 ls
  numbered := by
    show Numbered 0 (k.code ++ ls.toArray).toList k.labelCount
    rw [Array.toList_append]
    exact hk.numbered.append ⟨Nat.le_refl _, fun stem n hmem => absurd hmem (h stem n)⟩
  loops := hk.loops

/-- The lines in front of all code. -/
def headerLines (includes : List String) : List Line :=
  .directive ";format binary" :: .blank :: (includes.map includeLine ++ [.blank])

theorem forM_line_wrote (ls : List Line) (k : Compiler) :
    ls.forM line k = (.ok (), k.wrote 0 0 ls) := by
  induction ls generalizing k with
  | nil => exact congrArg (Prod.mk _) k.wrote_nothing.symm
  | cons l ls ih =>
    show (line l >>= fun _ => ls.forM line) k = _
    rw [bind_ok (line_wrote k l), ih, Compiler.wrote_wrote]
    rfl

theorem header_wrote (includes : List String) (k : Compiler) :
    header includes k = (.ok (), k.wrote 0 0 (headerLines includes)) := by
  have hincludes : (includes.forM fun path => line (includeLine path)) =
      (includes.map includeLine).forM line := by
    induction includes with
    | nil => rfl
    | cons path paths ih =>
      exact congrArg (fun rest => line (includeLine path) >>= fun _ => rest) ih
  unfold header
  rw [bind_ok (line_wrote _ _), bind_ok (line_wrote _ _), hincludes,
    bind_ok (forM_line_wrote _ _), line_wrote]
  simp only [Compiler.wrote_wrote]
  rfl

theorem passes_globalAll (ds : List Decl) :
    Compile.Passes none false (globalAll ds) fun _ => True := by
  induction ds with
  | nil => exact lays_return ()
  | cons d ds ih => exact lays_then (passes_decl d) ih

theorem between_front (h : p.front includes {} = (.ok (), k)) : k.Between := by
  have hk₀ : Compiler.Between {} := by
    refine ⟨⟨by decide, fun _ _ heq => (by cases heq), ⟨rfl, fun _ _ heq => (by cases heq), rfl⟩⟩,
      ?_, rfl⟩
    exact .nil (Nat.le_refl 0)
  have hheader (stem : Stem) (n : Nat) : .label (.minted stem n) ∉ headerLines includes := by
    simp [headerLines, includeLine]
  unfold Program.front at h
  rw [bind_ok (header_wrote _ _)] at h
  obtain ⟨⟨⟩, k₁, hfunctions, hglobals⟩ := bind_eq_ok h
  cases hfunctions
  have hk₁ := hk₀.wrote hheader
  have hlinked := Program.linked_functions p.functions hk₁.ready.functions
  have hready : Compiler.Ready (Compiler.Inside none false)
      (p.link (Compiler.wrote {} 0 0 (headerLines includes))) :=
    ⟨hk₁.ready.turning, hlinked,
      ⟨hk₁.ready.other.current, hk₁.ready.other.registers, hk₁.ready.other.returned⟩⟩
  obtain ⟨hk, -, ls, hcode, hcross⟩ := passes_globalAll p.globals _ _ _ hready hglobals
  refine ⟨hk, ?_, ((keeps_globalAll p.globals).extends hglobals).loops⟩
  rw [hcode]
  exact hk₁.numbered.append hcross.toNumbered

theorem Compiler.Between.functionAll {fs : List Func} (hk : k.Between)
    (hsteady : ∀ f ∈ fs, Stmt.steadyAll f.body = true) (h : functionAll fs k = (.ok (), k')) :
    k'.Between ∧ k.code.toList <+: k'.code.toList := by
  induction fs generalizing k with
  | nil =>
    cases h
    exact ⟨hk, List.prefix_refl _⟩
  | cons f fs ih =>
    obtain ⟨hf, hfs⟩ := List.forall_mem_cons.mp hsteady
    obtain ⟨⟨⟩, k₁, hfirst, hrest⟩ := bind_eq_ok h
    obtain ⟨hk₁, ls, hlines, -⟩ := Func.compile_routes hk hf hfirst
    obtain ⟨hk', hcode⟩ := ih hk₁ hfs hrest
    exact ⟨hk', (hlines ▸ List.prefix_append _ _).trans hcode⟩

end Between

namespace Program

variable {p : Program} {includes : List String} {f : Func} {k c c' : Compiler} {code : Array Line}

theorem code_joinData (k : Compiler) : k.code.toList <+: (joinData k).code.toList := by
  unfold joinData
  split
  · exact List.prefix_refl _
  · simp

theorem mainLines_some (k : Compiler) :
    mainLines (some f) k = f.compile (k.wrote 0 0 [.directive "entry main", .blank]) := by
  show (line _ >>= fun _ => line _ >>= fun _ => f.compile) k = _
  rw [bind_ok (line_wrote _ _), bind_ok (line_wrote _ _), Compiler.wrote_wrote]
  rfl

theorem between_mainLines (hk : k.Between)
    (hsteady : ∀ g ∈ p.compiled, Stmt.steadyAll g.body = true)
    (h : mainLines p.mainFunction? k = (.ok (), c)) : c.Between := by
  rcases hf : p.mainFunction? with _ | f
  · rw [hf] at h
    cases h
    exact hk
  · rw [hf, mainLines_some] at h
    have hmem : f ∈ p.compiled := List.mem_append_left _ (Option.mem_toList.mpr hf)
    exact (Func.compile_routes (hk.wrote (by simp)) (hsteady f hmem) h).1

/-- The state of the compiler before a function, and the lines of the function in the listing. -/
theorem Compiles.between (h : p.Compiles includes f c c') (hlisting : p.listing includes = .ok code)
    (hsteady : ∀ g ∈ p.compiled, Stmt.steadyAll g.body = true) :
    c.Between ∧ c'.code.toList <+: code.toList := by
  obtain ⟨k₁, k₂, k₃, hfront, hmain, hothers, rfl⟩ := listing_eq_ok hlisting
  have hk₁ := between_front hfront
  have hk₂ := between_mainLines hk₁ hsteady hmain
  have hrest : ∀ g ∈ p.otherFunctions, Stmt.steadyAll g.body = true :=
    fun g hg => hsteady g (List.mem_append_right _ hg)
  obtain ⟨hrun, ⟨hf, hc⟩ | ⟨fs, gs, hfs, hc⟩⟩ := h
  · -- the main function is the last thing that is compiled before `k₂`
    rw [bind_ok hfront, bind_ok (line_wrote _ _), line_wrote, Compiler.wrote_wrote] at hc
    cases hc
    rw [hf, mainLines_some] at hmain
    cases hmain.symm.trans hrun
    exact ⟨hk₁.wrote (by simp), (hk₂.functionAll hrest hothers).2.trans (code_joinData k₃)⟩
  · rw [bind_ok hfront, bind_ok hmain] at hc
    rw [hfs] at hrest hothers
    obtain ⟨hfs, hf, hgs⟩ : (∀ g ∈ fs, Stmt.steadyAll g.body = true) ∧
      Stmt.steadyAll f.body = true ∧
        ∀ g ∈ gs, Stmt.steadyAll g.body = true := by
      simpa [or_imp, forall_and] using hrest
    rw [functionAll_append, bind_ok hc] at hothers
    obtain ⟨⟨⟩, k, hfirst, hothers⟩ := bind_eq_ok hothers
    cases hfirst.symm.trans hrun
    have hc' := (hk₂.functionAll hfs hc).1
    have hk := (Func.compile_routes hc' hf hrun).1
    exact ⟨hc', (hk.functionAll hgs hothers).2.trans (code_joinData k₃)⟩

theorem exists_compiles (hlisting : p.listing includes = .ok code) (hf : f ∈ p.compiled) :
    ∃ c c', p.Compiles includes f c c' := by
  obtain ⟨k₁, k₂, k₃, hfront, hmain, hothers, rfl⟩ := listing_eq_ok hlisting
  rcases List.mem_append.mp hf with hf | hf
  · have hf : p.mainFunction? = some f := Option.mem_toList.mp hf
    rw [hf, mainLines_some] at hmain
    refine ⟨_, k₂, hmain, .inl ⟨hf, ?_⟩⟩
    rw [bind_ok hfront, bind_ok (line_wrote _ _), line_wrote, Compiler.wrote_wrote]
    rfl
  · obtain ⟨fs, gs, hfs⟩ := List.append_of_mem hf
    rw [hfs, functionAll_append] at hothers
    obtain ⟨⟨⟩, c, hbefore, hothers⟩ := bind_eq_ok hothers
    obtain ⟨⟨⟩, c', hrun, -⟩ := bind_eq_ok hothers
    refine ⟨c, c', hrun, .inr ⟨fs, gs, hfs, ?_⟩⟩
    rw [bind_ok hfront, bind_ok hmain]
    exact hbefore

end Program

/-- Where the code of a function can be left. The functions of the program hold no raw assembly and
write no name that reads like the register of jumps; calls come back. -/
theorem function_end_reached_iff {p : Program} {includes : List String} {code : Array Line}
    (hlisting : p.listing includes = .ok code)
    (hsteady : ∀ g ∈ p.compiled, Stmt.steadyAll g.body = true) {f : Func} (hf : f ∈ p.compiled) :
    (∃ c c', p.Compiles includes f c c') ∧ ∀ c c', p.Compiles includes f c c' →
      c'.code.toList <+: code.toList ∧
      code.toList[c.code.size + 1]? = some (.label (functionLabel f.name)) ∧
      -- the line behind the last line of the function can be reached in these functions only
      (Relation.ReflTransGen (Moves code.toList) (c.code.size + 1) c'.code.size ↔
        f.returns = true ∧ f.Completes) ∧
      -- in all others a run stays in the lines of the function
      (∀ outer inner s t, Cpu.Runs code.toList outer inner s t → s.pc = c.code.size + 1 →
        ¬(f.returns = true ∧ f.Completes) →
        c.code.size < t.pc ∧ t.pc < c'.code.size) ∧
      -- without a return, the end of the body leads to the return of zero
      (f.returns = false → ∃ e, e + (closingLines f.name).length = c'.code.size ∧
        (Relation.ReflTransGen (Moves code.toList) (c.code.size + 1) e ↔ f.Completes) ∧
        ∀ s : Cpu, s.pc = e → ∃ t, Cpu.Leads code.toList s t ∧ t.pc + 1 = c'.code.size ∧
        t.regs result = 0 ∧ t.memory = s.memory ∧
          if f.name = "main" then code.toList[t.pc]? = some (.instr .halt)
          else code.toList[t.pc]? = some returnLine ∧ t.regs link = s.memory (s.regs sp) ∧
          t.regs sp = s.regs sp + 1) ∧
      -- and a run of the body that comes to its end answers zero
      ∀ depth fuel m m', Stmt.exec (p.calls depth) fuel (.block f.body) m = (.ok (), m') →
        f.Completes ∧ Run.answer (Stmt.exec (p.calls depth) fuel (.block f.body)) m =
        (.ok 0, m') := by
  refine ⟨Program.exists_compiles hlisting hf, fun c c' hcompiles => ?_⟩
  obtain ⟨hc, hcode⟩ := hcompiles.between hlisting hsteady
  obtain ⟨e, hstands⟩ := Func.standsAt hc (hsteady f hf) hcompiles.1 hcode
  refine ⟨hcode, hstands.entry, hstands.leaves.reach_iff, ?_, ?_, ?_⟩
  · intro outer inner s t hruns hs hnot
    have hway := hruns.way
    rw [hs] at hway
    exact hstands.leaves.stays hnot hway
  · intro hreturns
    have hclosing : f.closing = closingLines f.name := by rw [Func.closing, hreturns]; rfl
    have hend := hstands.ends
    have hplaced := hstands.closing
    rw [hclosing] at hend hplaced
    refine ⟨e, hend, hstands.body.reach_iff, fun s hs => ?_⟩
    rw [← hend, ← hs]
    exact leads_closingLines (hs ▸ hplaced)
  · intro depth fuel m m' hrun
    have hcalls : (p.calls depth).Contained :=
      Program.contained_calls
        (fun name g hg => Program.closed_of_listing (by rw [hlisting]; rfl) hg) depth
    refine ⟨Func.completes_iff.mpr ?_, ?_⟩
    · have hends := ends_of_exec hcalls hrun
      rwa [Stmt.exits] at hends
    · rw [Run.answer, hrun]

/-- `function f(x) { if (x) { return 1; } }` and a main function that returns `f(0)`. -/
def sometimes : Func where
  name := "f"
  params := ["x"]
  body := [.ifThen (.name "x") (.block [.ret (some (.literal 1))])]

def always : Func where
  name := "main"
  params := []
  body := [.ret (some (.call "f" [.literal 0]))]

def fallingThrough : Program where
  functions := [sometimes, always]

def fallingThroughLines : Array Line := (fallingThrough.listing []).toOption.getD #[]

theorem fallingThrough_listing : fallingThrough.listing [] = .ok fallingThroughLines := by
  have hok : (fallingThrough.listing []).isOk = true := by decide +kernel
  unfold fallingThroughLines
  rcases hlines : fallingThrough.listing [] with _ | lines
  · rw [hlines] at hok
    cases hok
  · rfl

/-- The end of `f` can be reached, that of the main function cannot. -/
theorem fallingThrough_ends : fallingThrough.listing [] = .ok fallingThroughLines ∧
    (∀ g ∈ fallingThrough.compiled, Stmt.steadyAll g.body = true) ∧
    sometimes ∈ fallingThrough.compiled ∧ always ∈ fallingThrough.compiled ∧
    (∃ c c', fallingThrough.Compiles [] sometimes c c' ∧
      Relation.ReflTransGen (Moves fallingThroughLines.toList) (c.code.size + 1) c'.code.size) ∧
    ∃ c c', fallingThrough.Compiles [] always c c' ∧
      ¬Relation.ReflTransGen (Moves fallingThroughLines.toList) (c.code.size + 1) c'.code.size := by
  have hcompiled : fallingThrough.compiled = [always, sometimes] := rfl
  have hsteady : ∀ g ∈ fallingThrough.compiled, Stmt.steadyAll g.body = true := by
    rw [hcompiled]
    exact List.forall_mem_cons.mpr
      ⟨by decide +kernel, List.forall_mem_singleton.mpr (by decide +kernel)⟩
  have hf : sometimes ∈ fallingThrough.compiled :=
    hcompiled ▸ List.mem_cons_of_mem _ List.mem_cons_self
  have hmain : always ∈ fallingThrough.compiled := hcompiled ▸ List.mem_cons_self
  refine ⟨fallingThrough_listing, hsteady, hf, hmain, ?_, ?_⟩
  · obtain ⟨⟨c, c', hcompiles⟩, hall⟩ := function_end_reached_iff fallingThrough_listing hsteady hf
    refine ⟨c, c', hcompiles,
      (hall c c' hcompiles).2.2.1.mpr ⟨by decide, Func.completes_iff.mpr (by decide)⟩⟩
  · obtain ⟨⟨c, c', hcompiles⟩, hall⟩ :=
      function_end_reached_iff fallingThrough_listing hsteady hmain
    refine ⟨c, c', hcompiles, fun hreach => ?_⟩
    have hcompletes := Func.completes_iff.mp ((hall c c' hcompiles).2.2.1.mp hreach).2
    exact absurd hcompletes (by decide)

/-- The program answers zero, but the processor runs from its entry past the last line of `f`, which
is the last of the listing. -/
theorem fallingThrough_runs_past_end : fallingThrough.listing [] = .ok fallingThroughLines ∧
    (fallingThrough.run 2 {}).1 = .ok 0 ∧ ∃ t, Cpu.run fallingThroughLines.toList (fun _ => 0)
      ⟨fun _ => 0, fun _ => 0, lineOf fallingThroughLines.toList .main⟩ 19 = some t ∧
      t.pc = fallingThroughLines.size := by
  have hpc : (Cpu.run fallingThroughLines.toList (fun _ => 0)
      ⟨fun _ => 0, fun _ => 0, lineOf fallingThroughLines.toList .main⟩ 19).map (·.pc) =
      some fallingThroughLines.size := by
    decide +kernel
  obtain ⟨t, ht, hpc⟩ := Option.map_eq_some_iff.mp hpc
  exact ⟨fallingThrough_listing, rfl, t, ht, hpc⟩

end WordC
