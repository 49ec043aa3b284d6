import WordC.Proofs.FunctionCode
import WordC.Proofs.LoopControl

/-!
# What a call leaves to its caller

No register is saved around a call, and the variables of a function take the same registers as those
of its caller. But the stack is kept in order, and a function writes no registers behind those of
its own variables. So a call gives back the stack pointer and every register behind the variables of
the functions that it enters; the caller's other variables can be lost.
-/

namespace WordC

open Asm Compile Step

/-! ### Globals -/

/-- The names that a declaration outside of functions puts into the data section. -/
def Decl.outside : Decl → List String
  | var d => [d.name]
  | array d => [d.name]
  | pointer _ => []

/-- The names that a declaration outside of functions gives a register. -/
def Decl.pointers : Decl → List String
  | var _ | array _ => []
  | pointer d => [d.name]

namespace Compile

variable {current : Option String} {names outside : List String} {h : Int}

/-- What a global variable does besides its entry among the globals. -/
theorem lays_varData {top : Nat} (d : VarDecl) (l : Label) (hl : (Line.label l).isInert = true) :
    Stays (Compiler.Scoped current names outside) (Body top) h (do
      dataLine (.label l)
      dataLine ((d.init.map dataWord).getD (.word 0))
      modify fun c => { c with varPlaces := c.varPlaces.set d.name (.label l) }) := by
  have hword : ((d.init.map dataWord).getD (.word 0)).isInert = true := by
    cases d.init with
    | none => rfl
    | some e => exact isInert_dataWord e
  refine lays_then (lays_dataLine hl) (lays_then (lays_dataLine hword) ?_)
  exact lays_places fun k => ⟨rfl, rfl, rfl, rfl, rfl, rfl, rfl, rfl⟩

theorem lays_arrayData {top : Nat} (d : ArrayDecl) (size : Nat) (l : Label)
    (hl : (Line.label l).isInert = true) :
    Stays (Compiler.Scoped current names outside) (Body top) h (do
      dataLine (.label l)
      (d.init.getD []).forM fun e => dataLine (dataWord e)
      zeros (size - (d.init.getD []).length)
      modify fun c => { c with arrays := c.arrays.set d.name (.label l) }) := by
  have hvalues (es : List Expr) : Stays (Compiler.Scoped current names outside) (Body top) h
      (es.forM fun e => dataLine (dataWord e)) := by
    induction es with
    | nil => exact lays_return ()
    | cons e es ih => exact lays_then (lays_dataLine (isInert_dataWord e)) ih
  refine lays_then (lays_dataLine hl) (lays_then (hvalues _) (lays_then (lays_zeros _) ?_))
  exact lays_places fun k => ⟨rfl, rfl, rfl, rfl, rfl, rfl, rfl, rfl⟩

/-- A step that adds lines for a declaration and puts names into the data section. -/
def Declares (names outside : List String) (added : List String) (x : Compile Unit) : Prop :=
  ∀ k k', k.Ready (Compiler.Scoped none names outside) → x k = (.ok (), k') →
    k'.Ready (Compiler.Scoped none names (added ++ outside)) ∧
    ∃ ls, k'.code.toList = k.code.toList ++ ls ∧
    Body (firstFree names) 0 k.labelCount ls 0 k'.labelCount

theorem declares_global {x : String} {l : Label} {y : Compile Unit}
    (hy : Stays (Compiler.Scoped none names (x :: outside)) (Body (firstFree names)) 0 y) :
    Declares names outside [x] (do
      modify fun c => { c with globals := c.globals.set x l }
      y) := by
  intro k k' hk hrun
  have hset : Compiler.Ready (Compiler.Scoped none names (x :: outside)) { k with
        globals := k.globals.set x l } := by
    refine ⟨hk.turning, hk.functions,
      ⟨hk.other.current, hk.other.within, fun z hz => ?_, hk.other.data, hk.other.loops⟩⟩
    show ((k.globals.set x l).get? z).isSome = true
    rw [Table.get?_set]
    split
    · rfl
    · next hne => exact hk.other.outside z ((List.mem_cons.mp hz).resolve_left (Ne.symm hne))
  obtain ⟨hk', -, hlines⟩ := hy _ () k' hset hrun
  exact ⟨hk', hlines⟩

theorem declares_of_lays {x : Compile Unit}
    (hx : Stays (Compiler.Scoped none names outside) (Body (firstFree names)) 0 x) :
    Declares names outside [] x := by
  intro k k' hk hrun
  obtain ⟨hk', -, hlines⟩ := hx k () k' hk hrun
  exact ⟨hk', hlines⟩

theorem currentFunction_apply (k : Compiler) : currentFunction k = (.ok k.rest.current, k) := rfl

theorem declares_decl (hfree : firstFree names ≤ sp) {d : Decl} (hplain : d.plain = true)
    (hd : ∀ x ∈ d.pointers, x ∈ names) : Declares names outside d.outside (decl d) := by
  cases d with
  | var d =>
    intro k k' hk hrun
    have hglobal : globalVar d k = (.ok (), k') := by
      rw [decl, varDecl, Option.isNone_iff_eq_none.mp hplain] at hrun
      dsimp only at hrun
      rwa [bind_ok (currentFunction_apply k), hk.other.current] at hrun
    exact declares_global (lays_varData d _ rfl) k k' hk hglobal
  | array d =>
    intro k k' hk hrun
    obtain ⟨size, hglobal⟩ : ∃ size, globalArray d size k = (.ok (), k') := by
      rw [decl, arrayDecl] at hrun
      cases hsize : d.size with
      | literal size =>
        simp only [hsize] at hrun
        by_cases hzero : size = 0
        · rw [if_pos hzero] at hrun
          cases hrun
        · rw [if_neg hzero, bind_ok (currentFunction_apply k), hk.other.current] at hrun
          exact ⟨size, hrun⟩
      | _ =>
        simp only [hsize] at hrun
        cases hrun
    exact declares_global (lays_arrayData d size _ rfl) k k' hk hglobal
  | pointer d =>
    exact declares_of_lays (lays_pointerDecl hfree (hd d.name (List.mem_singleton_self _)))

theorem declares_globalAll (hfree : firstFree names ≤ sp) {ds : List Decl}
    (hplain : ∀ d ∈ ds, d.plain = true) (hds : ∀ d ∈ ds, ∀ x ∈ d.pointers, x ∈ names) :
    Declares names outside (ds.flatMap Decl.outside) (globalAll ds) := by
  induction ds generalizing outside with
  | nil => exact declares_of_lays (lays_return ())
  | cons d ds ih =>
    intro k k' hk hrun
    obtain ⟨hd, hplain⟩ := List.forall_mem_cons.mp hplain
    obtain ⟨hd', hds⟩ := List.forall_mem_cons.mp hds
    obtain ⟨_, k₁, hfirst, hrest⟩ := bind_eq_ok hrun
    obtain ⟨hk₁, xs, hxs, hbody⟩ := declares_decl hfree hd hd' k k₁ hk hfirst
    obtain ⟨hk', ys, hys, hbody'⟩ := ih hplain hds k₁ k' hk₁ hrest
    refine ⟨?_, xs ++ ys, by rw [hys, hxs, List.append_assoc], hbody.append hbody'⟩
    refine ⟨hk'.turning, hk'.functions, ⟨hk'.other.current, hk'.other.within,
      fun x hx => hk'.other.outside x ?_, hk'.other.data, hk'.other.loops⟩⟩
    simp only [List.flatMap_cons, List.mem_append] at hx ⊢
    tauto

end Compile

/-! ### The function that a line belongs to -/

def Asm.Line.entry? : Line → Option Label
  | .label l => if l.isEntry then some l else none
  | _ => none

/-- The last entry at or before a line. -/
def owner (code : List Line) (p : Nat) : Option Label :=
  ((code.take (p + 1)).filterMap Line.entry?).getLast?

/-- What the lines of each function may write. -/
def Owned (W : Label → Reg → Prop) (code : List Line) : Prop :=
  ∀ p l r f, code[p]? = some l → l.target? = some r → owner code p = some f → W f r

namespace Owned

variable {W : Label → Reg → Prop} {xs ys : List Line}

theorem entry?_eq_none {top : Nat} {l : Line} (h : l.Inside top) : l.entry? = none := by
  unfold Line.entry?
  split
  · next f =>
    rw [if_neg fun hf => h.entry f hf rfl]
  · rfl

/-- Lines before all functions. -/
theorem front (h : ∀ l ∈ xs, l.entry? = none) : Owned W xs := by
  intro p l r f _ _ howner
  rw [owner, List.filterMap_eq_nil_iff.mpr fun l hl => h l (List.mem_of_mem_take hl)] at howner
  cases howner

theorem append (hxs : Owned W xs) (hys : ∀ q l r f, ys[q]? = some l → l.target? = some r →
    owner (xs ++ ys) (xs.length + q) = some f → W f r) : Owned W (xs ++ ys) := by
  intro p l r f hl hr howner
  by_cases hp : p < xs.length
  · rw [List.getElem?_append_left hp] at hl
    rw [owner, List.take_append_of_le_length hp] at howner
    exact hxs p l r f hl hr howner
  · obtain ⟨q, rfl⟩ := Nat.exists_eq_add_of_le (Nat.le_of_not_lt hp)
    rw [List.getElem?_append_right (Nat.le_add_right _ _), Nat.add_sub_cancel_left] at hl
    exact hys q l r f hl hr howner

/-- Lines that are no instructions. -/
theorem inert (hxs : Owned W xs) (hys : ∀ l ∈ ys, l.isInert = true) : Owned W (xs ++ ys) := by
  refine hxs.append fun q l r f hl hr _ => ?_
  have hinert := hys l (List.mem_of_getElem? hl)
  cases l with
  | instr => cases hinert
  | _ => cases hr

theorem function (hxs : Owned W xs) {f : Label} (hf : f.isEntry = true) {top : Nat}
    (hinside : ∀ l ∈ ys, l.Inside top) (hW : ∀ l ∈ ys, ∀ r, l.target? = some r → W f r) :
    Owned W (xs ++ .blank :: .label f :: ys) := by
  refine hxs.append fun q l r g hl hr howner => ?_
  rcases q with _ | _ | q
  · cases hl
    cases hr
  · cases hl
    cases hr
  · have hnone : (ys.take (q + 1)).filterMap Line.entry? = [] :=
      List.filterMap_eq_nil_iff.mpr fun l hl => entry?_eq_none (hinside l (List.mem_of_mem_take hl))
    have hentries :
        ((.blank :: .label f :: ys).take (q + 1 + 1 + 1)).filterMap Line.entry? = [f] := by
      simp only [List.take_succ_cons, List.filterMap_cons, Line.entry?, hf, if_true]
      exact congrArg (f :: ·) hnone
    rw [owner, Nat.add_assoc, List.take_length_add_append, List.filterMap_append, hentries,
      List.getLast?_concat] at howner
    exact Option.some.inj howner ▸ hW l (List.mem_of_getElem? hl) r hr

end Owned

/-! ### Whole listings -/

theorem Fits.entry {m : Nat} {f : Label} (hf : f.isEntry = true) : Fits 0 m [.label f] 0 m := by
  refine .single (fun stem n heq => ?_)
    (fun code p hh => .rest (fun _ => Line.noConfusion) fun _ _ _ => hh) fun _ => rfl
  cases heq
  cases hf

theorem Fits.inert {m : Nat} {h : Int} {ls : List Line} (hls : ∀ l ∈ ls, l.isInert = true) :
    Fits h m ls h m := by
  induction ls with
  | nil => exact .nil (Nat.le_refl m)
  | cons l ls ih =>
    obtain ⟨hl, hls⟩ := List.forall_mem_cons.mp hls
    have hfirst : Body 0 h m [l] h m := .inert hl
    exact hfirst.toFits.append (ih hls)

theorem Fits.disciplined {m : Nat} {ls : List Line} (h : Fits 0 0 ls 0 m) : Disciplined ls := by
  have hplaced : Placed ls 0 ls := List.prefix_refl ls
  refine ⟨fun p l hl => ?_, ?_⟩
  · refine h.kept ls 0 hplaced rfl (fun _ _ _ _ hmem => List.not_mem_nil hmem) p l
      (Nat.zero_le p) ?_ hl
    rw [Nat.zero_add]
    exact (List.getElem?_eq_some_iff.mp hl).1
  · have hend := h.ends ls 0 hplaced rfl
    rwa [Nat.zero_add] at hend

namespace Program

/-- The names that a program puts into the data section. -/
def outside (p : Program) : List String := p.globals.flatMap Decl.outside

def pointers (p : Program) : List String := p.globals.flatMap Decl.pointers

/-- A program without raw assembly and variables bound to a register, whose variables have registers
of their own below those of the stack and of jumps. -/
structure Plain (p : Program) : Prop where
  globals : ∀ d ∈ p.globals, d.plain = true
  pointers : firstFree p.pointers ≤ sp
  functions : ∀ f ∈ p.functions, f.Plain p.outside

/-- The registers that may be written by the functions that are entered by a label. -/
def Writes (p : Program) (entry : Label) (r : Nat) : Prop :=
  ∃ f ∈ p.functions, functionLabel f.name = entry ∧
    (r < 11 ∨ link ≤ r ∨ r < firstFree (f.scalars p.outside))

/-- The state of the compiler between two functions. -/
structure Laid (p : Program) (k : Compiler) : Prop where
  ready : k.Ready (Compiler.Scoped none p.pointers p.outside)
  fits : Fits 0 0 k.code.toList 0 k.labelCount
  owned : Owned p.Writes k.code.toList

variable {p : Program} {k k' : Compiler}

theorem Laid.line (hk : p.Laid k) {l : Line} (hl : l.isInert = true) :
    p.Laid { k with code := k.code.push l } := by
  have hls : ∀ l' ∈ [l], l'.isInert = true := List.forall_mem_singleton.mpr hl
  refine ⟨⟨hk.ready.turning, hk.ready.functions, hk.ready.other⟩, ?_, ?_⟩
  · rw [Array.toList_push]
    exact hk.fits.append (.inert hls)
  · rw [Array.toList_push]
    exact hk.owned.inert hls

theorem Laid.function (hk : p.Laid k) {f : Func} (hf : f ∈ p.functions) (hplain : f.Plain p.outside)
    (hrun : f.compile k = (.ok (), k')) : p.Laid k' := by
  obtain ⟨hk', ls, hcode, hbody⟩ := Func.compile_body hplain hk.ready hrun
  have hentry := isEntry_functionLabel f.name
  have hblank : Fits 0 k.labelCount [.blank] 0 k.labelCount :=
    .inert (List.forall_mem_singleton.mpr rfl)
  refine ⟨hk', ?_, ?_⟩
  · rw [hcode]
    exact hk.fits.append (hblank.append ((Fits.entry hentry).append hbody.toFits))
  · rw [hcode]
    exact hk.owned.function hentry hbody.inside fun l hl r hr =>
      ⟨f, hf, rfl, (hbody.inside l hl).target r hr⟩

theorem Laid.functionAll {fs : List Func} (hfs : ∀ f ∈ fs, f ∈ p.functions) (hp : p.Plain)
    (hk : p.Laid k) (hrun : functionAll fs k = (.ok (), k')) : p.Laid k' := by
  induction fs generalizing k with
  | nil =>
    cases hrun
    exact hk
  | cons f fs ih =>
    obtain ⟨hf, hfs⟩ := List.forall_mem_cons.mp hfs
    obtain ⟨_, k₁, hfirst, hrest⟩ := bind_eq_ok hrun
    exact ih hfs (hk.function hf (hp.functions f hf) hfirst) hrest

theorem line_apply (l : Line) (k : Compiler) :
    Compile.line l k = (.ok (), { k with code := k.code.push l }) := rfl

theorem Laid.mainLines (hp : p.Plain) (hk : p.Laid k)
    (hrun : mainLines p.mainFunction? k = (.ok (), k')) : p.Laid k' := by
  rcases hmain : p.mainFunction? with _ | f
  · rw [hmain] at hrun
    cases hrun
    exact hk
  · rw [hmain, Compile.mainLines, bind_ok (line_apply _ _), bind_ok (line_apply _ _)] at hrun
    have hf : f ∈ p.functions := (mem_of_function? hmain).1
    exact ((hk.line rfl).line rfl).function hf (hp.functions f hf) hrun

theorem lays_header {A : Compiler → Prop} {top : Nat} {h : Int} (includes : List String) :
    Stays A (Body top) h (header includes) := by
  have hincludes (paths : List String) :
      Stays A (Body top) h (paths.forM fun path => Compile.line (includeLine path)) := by
    induction paths with
    | nil => exact lays_return ()
    | cons path paths ih => exact lays_then (lays_inert rfl) ih
  exact lays_then (lays_inert rfl)
    (lays_then (lays_inert rfl) (lays_then (hincludes includes) (lays_inert rfl)))

theorem linked_functions (fs : List Func) {t : Table Label}
    (ht : ∀ f l, t.get? f = some l → l = functionLabel f) :
    ∀ f l, (fs.foldl (fun t f => t.set f.name (functionLabel f.name)) t).get? f = some l →
    l = functionLabel f := by
  induction fs generalizing t with
  | nil => exact ht
  | cons g fs ih =>
    refine ih fun f l hl => ?_
    rw [Table.get?_set] at hl
    split at hl
    · next heq => exact heq ▸ (Option.some.inj hl).symm
    · exact ht f l hl

/-- The lines before all functions. -/
theorem laid_front (hp : p.Plain) {includes : List String} {k₁ : Compiler}
    (hheader : header includes {} = (.ok (), k₁)) (hglobals : globalAll p.globals { k₁ with
      functions := p.functions.foldl
        (fun t f => t.set f.name (functionLabel f.name)) k₁.functions } = (.ok (), k)) :
    p.Laid k := by
  have hk₀ : Compiler.Ready (Compiler.Scoped none p.pointers []) {} := by
    refine ⟨by decide, fun _ _ hl => (nomatch hl), ⟨rfl, .empty, ?_, ?_, ?_⟩⟩
    all_goals exact List.forall_mem_nil _
  obtain ⟨hk₁, -, xs, hxs, hbody⟩ := lays_header includes {} () k₁ hk₀ hheader
  have hk₂ : Compiler.Ready (Compiler.Scoped none p.pointers []) { k₁ with
      functions :=
      p.functions.foldl (fun t f => t.set f.name (functionLabel f.name)) k₁.functions } :=
    ⟨hk₁.turning, linked_functions p.functions hk₁.functions,
      ⟨hk₁.other.current, hk₁.other.within, hk₁.other.outside, hk₁.other.data, hk₁.other.loops⟩⟩
  have hpointers : ∀ d ∈ p.globals, ∀ x ∈ d.pointers, x ∈ p.pointers :=
    fun d hd x hx => List.mem_flatMap_of_mem hd hx
  obtain ⟨hk, ys, hys, hbody'⟩ :=
    declares_globalAll hp.pointers hp.globals hpointers _ k hk₂ hglobals
  have hall := hbody.append hbody'
  have hcode : k.code.toList = xs ++ ys := hys.trans (congrArg (· ++ ys) hxs)
  rw [List.append_nil] at hk
  refine ⟨hk, ?_, ?_⟩
  · rw [hcode]
    exact hall.toFits
  · rw [hcode]
    exact .front fun l hl => Owned.entry?_eq_none (hall.inside l hl)

theorem Laid.joinData (hk : p.Laid k) :
    Fits 0 0 (joinData k).code.toList 0 k.labelCount ∧ Owned p.Writes (joinData k).code.toList := by
  unfold Compile.joinData
  split
  · exact ⟨hk.fits, hk.owned⟩
  · have hls : ∀ l ∈ [.blank, .directive "; Data section"] ++ k.data.toList, l.isInert = true :=
      List.forall_mem_append.mpr ⟨by decide, hk.ready.other.data⟩
    simp only [Array.toList_append, List.append_assoc]
    exact ⟨hk.fits.append (.inert hls), hk.owned.inert hls⟩

theorem listing_laid {includes : List String} {lines : Array Line} (hp : p.Plain)
    (h : p.listing includes = .ok lines) :
    Disciplined lines.toList ∧ Owned p.Writes lines.toList := by
  obtain ⟨k, hcompile, rfl⟩ := compile_of_listing h
  rw [compile_eq] at hcompile
  obtain ⟨_, k₀, hempty, hcompile⟩ := bind_eq_ok hcompile
  cases hempty
  obtain ⟨_, k₁, hheader, hcompile⟩ := bind_eq_ok hcompile
  obtain ⟨_, k₂, hfunctions, hcompile⟩ := bind_eq_ok hcompile
  cases hfunctions
  obtain ⟨_, k₃, hglobals, hcompile⟩ := bind_eq_ok hcompile
  obtain ⟨_, k₄, hmain, hcompile⟩ := bind_eq_ok hcompile
  obtain ⟨_, k₅, hothers, hdata⟩ := bind_eq_ok hcompile
  cases hdata
  have hmain' := (laid_front hp hheader hglobals).mainLines hp hmain
  have hall := hmain'.functionAll (fun f hf => List.mem_of_mem_filter hf) hp hothers
  exact ⟨hall.joinData.1.disciplined, hall.joinData.2⟩

end Program

/-! ### Calls -/

/-- A piece at height zero has no line in front that the first line could belong to. -/
theorem Fits.head_ne {m m' : Nat} {h' : Int} {ls : List Line} (h : Fits 0 m ls h' m') (n : Reg) :
    ls[0]? ≠ some (dropLine n) := by
  intro hdrop
  have hlt : 0 < ls.length := (List.getElem?_eq_some_iff.mp hdrop).1
  have hkept := h.kept ls 0 (List.prefix_refl ls) rfl
    (fun _ _ _ _ hmem => List.not_mem_nil hmem) 0 _ (Nat.le_refl 0)
    (by rwa [Nat.zero_add]) hdrop
  generalize hline : dropLine n = line at hkept
  cases hkept with
  | rest hrest => exact hrest _ hline.symm
  | plain hi =>
    cases hline
    exact (hi sp rfl).1 rfl
  | push | pop | call | back => cases hline
  | drop hbefore => cases hbefore
  | jump hjump =>
    rw [← hline] at hjump
    cases hjump

theorem Asm.Cpu.Runs.eq_of_not {code : List Line} {outer inner : Nat → Prop} {s t : Cpu}
    (h : Cpu.Runs code outer inner s t) (hs : ¬inner s.pc) : t = s := by
  cases h with
  | refl => rfl
  | step hp | call hp => exact absurd hp hs

/-- The code of an expression gives back the stack pointer, and of the registers of variables it
changes only what the functions change that it enters. -/
theorem Expr.runs_keep {e : Expr} {k k' : Compiler} {d : Reg} (hk : k.Ready fun _ => True)
    (he : e.compile k = (.ok d, k')) {code : List Line} (hcode : Disciplined code)
    (hplace : k'.code.toList <+: code) {outer : Nat → Prop} {s t : Cpu}
    (hrun : Cpu.Runs code outer (fun q => k.code.size ≤ q ∧ q < k'.code.size) s t)
    (hs : s.pc = k.code.size) (ht : t.pc = k'.code.size) : t.regs sp = s.regs sp ∧
    ∀ r : Nat, 11 ≤ r → r < link → (∀ q l, outer q → code[q]? = some l → l.target? ≠ some r) →
      t.regs r = s.regs r := by
  have hlays (h : Int) : Stays (fun _ => True) (Body 11) h e.compile := e.lays_compile h
  obtain ⟨-, -, ls, hls, hbody⟩ := hlays (height code k.code.size) k d k' hk he
  have hplaced : Placed code k.code.size ls := by
    obtain ⟨rest, hrest⟩ := hplace
    rw [← hrest, hls, List.append_assoc, Placed, ← Array.length_toList, List.drop_left]
    exact List.prefix_append ls rest
  have hsize : k'.code.size = k.code.size + ls.length := by
    rw [← Array.length_toList, hls, List.length_append, Array.length_toList]
  have hline {q : Nat} {l : Line} (hq : k.code.size ≤ q) (hq' : q < k'.code.size)
      (hl : code[q]? = some l) : l ∈ ls := by
    obtain ⟨i, rfl⟩ := Nat.exists_eq_add_of_le hq
    have hi : i < ls.length := by omega
    cases (hplaced.get hi).symm.trans hl
    exact List.getElem_mem hi
  rcases Nat.eq_zero_or_pos ls.length with hnil | hpos
  · obtain rfl := hrun.eq_of_not (by omega)
    exact ⟨rfl, fun _ _ _ _ => rfl⟩
  have hsettled : s.Settled code := by
    obtain ⟨-, -, ls', hls', hbody'⟩ := hlays 0 k d k' hk he
    obtain rfl : ls' = ls := List.append_cancel_left (hls'.symm.trans hls)
    intro n m hdrop
    rw [hs, ← Nat.add_zero k.code.size, hplaced.get hpos, ← List.getElem?_eq_getElem] at hdrop
    exact absurd hdrop (hbody'.head_ne n)
  refine ⟨?_, fun r hr hr' houter => ?_⟩
  · have hlevel := (hrun.level hcode hsettled).1
    rw [Cpu.level, Cpu.level, ht, hs, hsize, hbody.ends code _ hplaced rfl] at hlevel
    exact (BitVec.add_left_inj _).mp hlevel
  · refine hrun.regs houter fun q l hq hl hwrites => ?_
    rcases (hbody.inside l (hline hq.1 hq.2 hl)).target r hwrites with h | h | h
    · omega
    · exact Nat.not_lt_of_le h hr'
    · omega

/-- The lines of the functions with the given names. -/
def linesOf (code : List Line) (names : List String) (q : Nat) : Prop :=
  ∃ g ∈ names, owner code q = some (functionLabel g)

theorem functionLabel_inj {f g : String} (h : functionLabel f = functionLabel g) : f = g := by
  unfold functionLabel at h
  split at h <;> split at h
  · next hf hg => exact hf.trans hg.symm
  · cases h
  · cases h
  · exact Label.function.inj h

/-- A call that has come back, with all calls made meanwhile, has given back the stack pointer. A
register that can be a variable's has kept its value if it lies behind the variables of every
function that was entered. -/
theorem call_keeps_caller {p : Program} {includes : List String} {lines : Array Line} (hp : p.Plain)
    (hlisting : p.listing includes = .ok lines) {f : String} {args : List Expr} {k k' : Compiler}
    {d : Reg} (hturn : k.pool.nextTemp < 10)
    (hlinked : ∀ g l, k.functions.get? g = some l → l = functionLabel g)
    (hcall : (Expr.call f args).compile k = (.ok d, k')) (hplace : k'.code.toList <+: lines.toList)
    {entered : List String} {s t : Cpu} (hrun : Cpu.Runs lines.toList (linesOf lines.toList entered)
      (fun q => k.code.size ≤ q ∧ q < k'.code.size) s t) (hs : s.pc = k.code.size)
      (ht : t.pc = k'.code.size) :
    t.regs sp = s.regs sp ∧
    ∀ r : Nat, 11 ≤ r → r < link →
    (∀ g ∈ p.functions, g.name ∈ entered → firstFree (g.scalars p.outside) ≤ r) →
      t.regs r = s.regs r := by
  obtain ⟨hcode, howned⟩ := p.listing_laid hp hlisting
  obtain ⟨hsp, hregs⟩ := Expr.runs_keep ⟨hturn, hlinked, trivial⟩ hcall hcode hplace hrun hs ht
  refine ⟨hsp, fun r hr hr' hbehind => hregs r hr hr' ?_⟩
  rintro q l ⟨name, hname, howner⟩ hl hwrites
  obtain ⟨g, hg, hlabel, h | h | h⟩ := howned q l r _ hl hwrites howner
  · omega
  · exact Nat.not_lt_of_le h hr'
  · exact Nat.not_lt_of_le (hbehind g hg (functionLabel_inj hlabel ▸ hname)) h

/-! ### One call -/

namespace Asm

/-- Neither a call nor a return. -/
def Line.goesOn : Line → Bool
  | .instr (.mov d (.addr f)) => !(d = ip && f.isEntry)
  | .instr (.mov d (.reg r)) => !(d = ip && r = link)
  | _ => true

namespace Cpu

variable {code : List Line} {outer inner : Nat → Prop} [DecidablePred outer]
  [DecidablePred inner] {s t u : Cpu}

/-- Steps in some lines without calls. -/
def advance (code : List Line) (inner : Nat → Prop) [DecidablePred inner] : Nat → Cpu → Option Cpu
  | 0, s => some s
  | n + 1, s =>
    if inner s.pc ∧ code[s.pc]?.any Line.goesOn then (s.step code 0).bind (advance code inner n)
    else none

/-- A call of a function that makes no calls, with the steps before it, in it and behind it. -/
def oneCall (code : List Line) (outer inner : Nat → Prop) [DecidablePred outer]
    [DecidablePred inner] (f : Label) (before within behind : Nat) (s : Cpu) : Option Cpu :=
  (advance code inner before s).bind fun atCall =>
  (if inner atCall.pc ∧ code[atCall.pc]? = some (callLine f)
    then atCall.step code 0 else none).bind fun entered =>
  (advance code outer within entered).bind fun atReturn =>
  (if outer atReturn.pc ∧ code[atReturn.pc]? = some returnLine
    then atReturn.step code 0 else none).bind fun back =>
  if back.pc = atCall.pc + 1 then advance code inner behind back else none

omit [DecidablePred outer] in
theorem Runs.of_advance {n : Nat} (h : advance code inner n s = some t)
    (hrest : Runs code outer inner t u) : Runs code outer inner s u := by
  induction n generalizing s with
  | zero =>
    cases h
    exact hrest
  | succ n ih =>
    obtain ⟨⟨hp, hgoes⟩, h⟩ := Option.ite_none_right_eq_some.mp h
    obtain ⟨l, hl, hline⟩ := (Option.any_eq_true _ _).mp hgoes
    obtain ⟨s', hstep, h⟩ := Option.bind_eq_some_iff.mp h
    refine .step hp hl (fun f hf heq => ?_) (fun heq => ?_) hstep (ih h)
    · subst heq
      simp [Line.goesOn, hf] at hline
    · subst heq
      cases hline

theorem Runs.of_oneCall {f : Label} (hf : f.isEntry = true) {before within behind : Nat}
    (h : oneCall code outer inner f before within behind s = some t) :
    Runs code outer inner s t := by
  obtain ⟨atCall, hbefore, h⟩ := Option.bind_eq_some_iff.mp h
  obtain ⟨entered, hentered, h⟩ := Option.bind_eq_some_iff.mp h
  obtain ⟨⟨hp, hl⟩, hcall⟩ := Option.ite_none_right_eq_some.mp hentered
  obtain ⟨atReturn, hwithin, h⟩ := Option.bind_eq_some_iff.mp h
  obtain ⟨back, hback, h⟩ := Option.bind_eq_some_iff.mp h
  obtain ⟨⟨hq, hreturn⟩, hstep⟩ := Option.ite_none_right_eq_some.mp hback
  obtain ⟨hpc, hbehind⟩ := Option.ite_none_right_eq_some.mp h
  exact .of_advance hbefore (.call hp hl hf hcall (.of_advance hwithin .refl) hq hreturn hstep hpc
    (.of_advance hbehind .refl))

end Cpu

end Asm

instance (code : List Line) (names : List String) : DecidablePred (linesOf code names) :=
  fun q => inferInstanceAs (Decidable (∃ g ∈ names, owner code q = some (functionLabel g)))

/-- The main function has two variables and calls a function with one. -/
def lending : Program where
  functions := [
    { name := "f", params := ["a"], body := [.ret (some (.name "a"))] },
    { name := "main", params := [], body := [
      .decl (.var { name := "x", init := some (.literal 5) }),
      .decl (.var { name := "y", init := some (.literal 6) }),
      .call (.call "f" [.literal 7]),
      .ret (some (.name "x"))] }]

theorem lending_plain : lending.Plain := by
  refine ⟨by decide, by decide,
    List.forall_mem_cons.mpr ⟨⟨rfl, ?_, ?_⟩, List.forall_mem_singleton.mpr ⟨rfl, ?_, ?_⟩⟩⟩
  all_goals decide +kernel

def lendingLines : Array Line := (lending.listing []).toOption.getD #[]

/-- The compiler in front of the call. -/
def beforeCall : Compiler where
  pool := { allocated := ⟨[("x", 11), ("y", 12)]⟩, nextTemp := 4 }
  code := lendingLines.take 12
  functions := lending.functions.foldl (fun t f => t.set f.name (functionLabel f.name)) {}
  current := some "main"

/-- The compiler behind the call. -/
def behindCall : Compiler := ((Expr.call "f" [.literal 7]).compile beforeCall).2

theorem lending_listing : lending.listing [] = .ok lendingLines := by
  have hok : (lending.listing []).isOk = true := by decide +kernel
  unfold lendingLines
  rcases hlines : lending.listing [] with _ | lines
  · rw [hlines] at hok
    cases hok
  · rfl

theorem lending_call :
    ∃ d, (Expr.call "f" [.literal 7]).compile beforeCall = (.ok d, behindCall) := by
  have hok : ((Expr.call "f" [.literal 7]).compile beforeCall).1.isOk = true := by decide +kernel
  unfold behindCall
  rcases hrun : (Expr.call "f" [.literal 7]).compile beforeCall with ⟨_ | d, k'⟩
  · rw [hrun] at hok
    cases hok
  · exact ⟨d, rfl⟩

/-- The processor at the start of the program. -/
def lendingStart : Cpu where
  regs r := if r = sp then 100 else 0
  memory _ := 0
  pc := 6

abbrev lendingCall (q : Nat) : Prop := beforeCall.code.size ≤ q ∧ q < behindCall.code.size

/-- The processor in front of the call and behind it. -/
def lendingRun : Option (Cpu × Cpu) :=
  (Cpu.run lendingLines.toList (fun _ => 0) lendingStart 6).bind fun s =>
    (Cpu.oneCall lendingLines.toList (linesOf lendingLines.toList ["f"]) lendingCall
      (.function "f") 7 9 4 s).map fun t => (s, t)

theorem lending_run : ∃ s t, Cpu.run lendingLines.toList (fun _ => 0) lendingStart 6 = some s ∧
    Cpu.Runs lendingLines.toList (linesOf lendingLines.toList ["f"]) lendingCall s t ∧
    s.pc = beforeCall.code.size ∧ t.pc = behindCall.code.size ∧ s.regs 11 = 5 ∧ t.regs 11 = 7 := by
  have hfacts : (lendingRun.map fun r =>
        (r.1.pc = beforeCall.code.size ∧ r.2.pc = behindCall.code.size ∧ r.1.regs 11 = 5 ∧
      r.2.regs 11 = 7 : Bool)) = some true := by decide +kernel
  obtain ⟨⟨s, t⟩, hrun, hfacts⟩ := Option.map_eq_some_iff.mp hfacts
  obtain ⟨s', hs, ht⟩ := Option.bind_eq_some_iff.mp hrun
  obtain ⟨t', ht, heq⟩ := Option.map_eq_some_iff.mp ht
  cases heq
  exact ⟨s, t, hs, .of_oneCall rfl ht, of_decide_eq_true hfacts⟩

theorem lending_keeps_y : ∃ s t d, lending.Plain ∧ lending.listing [] = .ok lendingLines ∧
    (Expr.call "f" [.literal 7]).compile beforeCall = (.ok d, behindCall) ∧
    behindCall.code.toList <+: lendingLines.toList ∧ beforeCall.pool.allocated.get? "y" = some 12 ∧
    Cpu.Runs lendingLines.toList (linesOf lendingLines.toList ["f"]) lendingCall s t ∧
    s.pc = beforeCall.code.size ∧ t.pc = behindCall.code.size ∧ t.regs sp = s.regs sp ∧
    t.regs 12 = s.regs 12 := by
  obtain ⟨d, hcall⟩ := lending_call
  obtain ⟨s, t, -, hrun, hs, ht, -, -⟩ := lending_run
  have hplace : behindCall.code.toList <+: lendingLines.toList := by decide +kernel
  have hlinked : ∀ g l, beforeCall.functions.get? g = some l → l = functionLabel g :=
    Program.linked_functions lending.functions fun _ _ hl => nomatch hl
  obtain ⟨hsp, hregs⟩ :=
    call_keeps_caller lending_plain lending_listing (by decide) hlinked hcall hplace hrun hs ht
  have hy : t.regs 12 = s.regs 12 := hregs 12 (by decide) (by decide) (by decide +kernel)
  exact ⟨s, t, d, lending_plain, lending_listing, hcall, hplace, by decide, hrun, hs, ht, hsp, hy⟩

/-- The variable that shares its register with the other function's is lost. -/
theorem lending_loses_x : ∃ s t d, lending.Plain ∧ lending.listing [] = .ok lendingLines ∧
    (Expr.call "f" [.literal 7]).compile beforeCall = (.ok d, behindCall) ∧
    behindCall.code.toList <+: lendingLines.toList ∧ beforeCall.pool.allocated.get? "x" = some 11 ∧
    Cpu.run lendingLines.toList (fun _ => 0) lendingStart 6 = some s ∧
    Cpu.Runs lendingLines.toList (linesOf lendingLines.toList ["f"]) lendingCall s t ∧
    s.pc = beforeCall.code.size ∧ t.pc = behindCall.code.size ∧ s.regs 11 = 5 ∧ t.regs 11 = 7 := by
  obtain ⟨d, hcall⟩ := lending_call
  obtain ⟨s, t, hbefore, hrun, hs, ht, hx, hx'⟩ := lending_run
  exact ⟨s, t, d, lending_plain, lending_listing, hcall, by decide +kernel, by decide, hbefore,
    hrun, hs, ht, hx, hx'⟩

end WordC
