import WordC.Proofs.CompilerStates
import WordC.Proofs.ControlFlow
import WordC.Proofs.ScratchCode

/-!
# How often a call is compiled

A call in the text of a program should be one call in its code. Here the lines that call a function
of the program, or send a byte, are counted against the calls in a statement. They come out even but
for one form: a statement that calls a device function other than `uart_write` has its arguments
compiled twice, so whatever they call is called twice.
-/

namespace WordC

open Asm Compile Step

/-! ### Calls in statements -/

namespace Expr

/-- The calls of an expression that may be left out. -/
def callsOf (e : Option Expr) : List String := (e.map calls).getD []

end Expr

def Decl.calls : Decl → List String
  | var d => Expr.callsOf d.init
  | array d => d.size.calls ++ Expr.callsAll (d.init.getD [])
  | pointer d => Expr.callsOf d.init

def ForInit.calls : ForInit → List String
  | declare d => Expr.callsOf d.init
  | assign _ e => e.calls

def ForStep.calls : ForStep → List String
  | increment _ _ => []
  | decrement _ _ => []
  | assign _ e => e.calls

namespace Stmt

mutual

/-- The functions that a statement calls, one entry for each call. -/
def calls : Stmt → List String
  | decl d => d.calls
  | assign _ e => e.calls
  | assignIndex _ i e => i.calls ++ e.calls
  | assignDeref p e => p.calls ++ e.calls
  | ret e => Expr.callsOf e
  | ifThen c s => c.calls ++ calls s
  | ifElse c s t => c.calls ++ (calls s ++ calls t)
  | whileLoop c s => c.calls ++ calls s
  | doWhile s c => calls s ++ c.calls
  | forLoop init c step s =>
    (init.map ForInit.calls).getD [] ++
      (Expr.callsOf c ++ (calls s ++ (step.map ForStep.calls).getD []))
  | block ss => callsAll ss
  | call e => e.calls
  | increment _ _ => []
  | decrement _ _ => []
  | breakLoop => []
  | continueLoop => []
  | asm _ => []
  | hole => []

def callsAll : List Stmt → List String
  | [] => []
  | s :: ss => calls s ++ callsAll ss

end

/-- The calls among the arguments of a device function other than `uart_write`. -/
def repeatedCall (functions : Table Label) : Expr → List String
  | .call f args => if functions.contains f ∨ f = "uart_write" then [] else Expr.callsAll args
  | _ => []

mutual

/-- The calls of a statement that are compiled a second time. -/
def repeated (functions : Table Label) : Stmt → List String
  | call e => repeatedCall functions e
  | ifThen _ s => repeated functions s
  | ifElse _ s t => repeated functions s ++ repeated functions t
  | whileLoop _ s => repeated functions s
  | doWhile s _ => repeated functions s
  | forLoop _ _ _ s => repeated functions s
  | block ss => repeatedAll functions ss
  | _ => []

def repeatedAll (functions : Table Label) : List Stmt → List String
  | [] => []
  | s :: ss => repeated functions s ++ repeatedAll functions ss

end

end Stmt

/-! ### Calls in lines -/

namespace Asm

/-- Lines that send a byte. -/
def Line.isSend : Line → Bool
  | .instr (.device .outUart _) => true
  | _ => false

/-- Lines that enter a function or send a byte. -/
def Line.isCall : Line → Bool
  | .instr (.mov d (.addr l)) => d == ip && l.isEntry
  | line => line.isSend

/-- The lines that calls of `f` become: jumps to its label, or for `uart_write` the lines that send
a byte. -/
def Line.callOf (functions : Table Label) (f : String) (line : Line) : Bool :=
  match functions.get? f with
  | some target => line == callLine target
  | none => line.isSend

theorem Line.callOf_of_isCall {functions : Table Label} {f : String} {line : Line}
    (hlabels : ∀ f l, functions.get? f = some l → l = functionLabel f) (h : line.isCall = false) :
    line.callOf functions f = false := by
  unfold callOf
  split
  · next target htarget =>
    refine beq_eq_false_iff_ne.mpr fun heq => ?_
    rw [heq, hlabels f target htarget] at h
    simp [isCall, isEntry_functionLabel] at h
  · cases line with
    | instr i =>
      cases i with
      | mov d o => rfl
      | _ => exact h
    | _ => rfl

/-- The jump into a function is a call of that function. -/
theorem Line.callOf_callLine {functions : Table Label} {f h : String} {target : Label}
    (hlabels : ∀ f l, functions.get? f = some l → l = functionLabel f)
    (htarget : functions.get? h = some target) :
    (callLine target).callOf functions f = decide (h = f) := by
  unfold callOf
  split
  · next target' htarget' =>
    rw [hlabels h target htarget, hlabels f target' htarget', Bool.eq_iff_iff, beq_iff_eq,
      decide_eq_true_iff]
    constructor
    · intro heq
      exact functionLabel_inj (by simpa using heq)
    · rintro rfl
      rfl
  · next hnone =>
    have hne : h ≠ f := by
      rintro rfl
      rw [htarget] at hnone
      cases hnone
    rw [decide_eq_false hne]
    rfl

/-- Where `uart_write` is the device function, a byte is sent by a call of it. -/
theorem Line.callOf_send {functions : Table Label} {f : String}
    (hf : functions.contains f = true ∨ f = "uart_write")
    (hwrite : functions.get? "uart_write" = none) (r : Reg) :
    (Line.instr (.device .outUart r)).callOf functions f = decide ("uart_write" = f) := by
  unfold callOf
  split
  · next target htarget =>
    have hne : "uart_write" ≠ f := by
      rintro rfl
      rw [hwrite] at htarget
      cases htarget
    rw [decide_eq_false hne]
    rfl
  · next hnone =>
    rcases hf with hf | rfl
    · rw [Table.contains, hnone] at hf
      cases hf
    · exact (decide_eq_true rfl).symm

theorem Line.isCall_mov {d : Reg} (hd : IsTemp d) (o : Operand) :
    (Line.instr (.mov d o)).isCall = false := by
  have hne : d ≠ ip := Nat.ne_of_lt (Nat.lt_trans hd.2 (by decide))
  cases o <;> simp [Line.isCall, Line.isSend, hne]

theorem Line.ScratchIn.isCall {low high : Nat} {line : Line} (h : line.ScratchIn [] low high) :
    line.isCall = false := by
  cases h with
  | label l => rfl
  | put hi hd =>
    rename_i i d
    cases i with
    | mov e o =>
      cases hi
      exact Line.isCall_mov hd o
    | device op r =>
      cases op with
      | outUart => cases hi
      | _ => rfl
    | _ => rfl
  | send r hop => cases hop
  | jump hjump hl =>
    obtain ⟨stem, n, rfl, -⟩ := hl
    rcases Line.jump_cases hjump with heq | ⟨c, heq | heq⟩ <;> cases heq <;> rfl

end Asm

/-- A state inside of the function `g`, with `n` lines that call `f`. -/
structure Compiler.Counted (fs : Table Label) (f g : String) (n : Nat) (c : Compiler) :
    Prop extends c.Regular where
  functions : c.functions = fs
  /-- Calls of other device functions leave no line that tells them. -/
  known : fs.contains f = true ∨ f = "uart_write"
  current : c.current = some g
  count : c.code.toList.countP (Line.callOf fs f) = n

namespace Compiler.Counted

variable {fs : Table Label} {f g : String} {n : Nat} {c c' : Compiler}

theorem labels (h : c.Counted fs f g n) : ∀ f l, fs.get? f = some l → l = functionLabel f :=
  h.functions ▸ h.linked

/-- Further lines of the code, with everything else as it was. -/
theorem extend (h : c.Counted fs f g n) (hc' : c.Extends c') {lines : List Line}
    (hlines : c'.code.toList = c.code.toList ++ lines) :
    c'.Counted fs f g (n + lines.countP (Line.callOf fs f)) where
  toRegular := h.toRegular.of_extends hc'
  functions := hc'.functions.trans h.functions
  known := h.known
  current := hc'.current.trans h.current
  count := by rw [hlines, List.countP_append, h.count]

theorem silent (h : c.Counted fs f g n) (hc' : c.Extends c') {lines : List Line}
    (hlines : c'.code.toList = c.code.toList ++ lines) (hcalls : ∀ l ∈ lines, l.isCall = false) :
    c'.Counted fs f g n := by
  have hzero : lines.countP (Line.callOf fs f) = 0 :=
    List.countP_eq_zero.mpr fun l hl =>
      Bool.eq_false_iff.mp (Line.callOf_of_isCall h.labels (hcalls l hl))
  have hextend := h.extend hc' hlines
  rwa [hzero] at hextend

end Compiler.Counted

/-! ### Steps -/

/-- A step that writes `m` lines that call `f`. -/
def Compile.Adds {α : Type} (fs : Table Label) (f g : String) (m : Nat) (x : Compile α) : Prop :=
  ∀ n, Brings (Compiler.Counted fs f g n) x fun _ => Compiler.Counted fs f g (n + m)

namespace Compile

variable {α β : Type} {fs : Table Label} {f g : String} {m m' : Nat}

variable {x : Compile α} {y : α → Compile β} {h : String}

theorem adds_bind (hx : x.Adds fs f g m) (hy : ∀ a, (y a).Adds fs f g m') :
    Adds fs f g (m + m') (x >>= y) := by
  intro n
  refine brings_bind (hx n) fun a => ?_
  have hnext := hy a (n + m)
  rwa [Nat.add_assoc] at hnext

theorem adds_next (hx : x.Adds fs f g 0) (hy : ∀ a, (y a).Adds fs f g m) :
    Adds fs f g m (x >>= y) := fun n => brings_bind (hx n) fun a => hy a n

theorem adds_last (hx : x.Adds fs f g m) (hy : ∀ a, (y a).Adds fs f g 0) :
    Adds fs f g m (x >>= y) := show Adds fs f g (m + 0) (x >>= y) from adds_bind hx hy

theorem adds_pure (a : α) : (pure a : Compile α).Adds fs f g 0 :=
  fun _ => brings_pure fun _ hc => hc

theorem adds_throw (e : CompileError) : (throw e : Compile α).Adds fs f g m :=
  fun _ => brings_throw e

theorem adds_failing (hx : ∀ P, Brings P x fun _ _ => False) :
    Adds fs f g m (x >>= y) := fun _ => brings_failing (hx _)

theorem adds_ite {p : Prop} [Decidable p] {y : Compile α} (hx : x.Adds fs f g m)
    (hy : y.Adds fs f g m) : Adds fs f g m (if p then x else y) := fun n => brings_ite (hx n) (hy n)

/-- What is known of the function that is counted. -/
theorem adds_known (hx : fs.contains f = true ∨ f = "uart_write" → x.Adds fs f g m) :
    x.Adds fs f g m :=
  fun n c a c' hc hrun => hx hc.known n c a c' hc hrun

theorem adds_get {y : Compiler → Compile β} (hy : ∀ c, c.functions = fs → c.current = some g →
      (∀ loop ∈ c.loops, loop.next.isEntry = false ∧ loop.exit.isEntry = false) →
      (y c).Adds fs f g m) : Adds fs f g m (get >>= y) := fun n =>
  brings_get fun c hc => brings_at hc (hy c hc.functions hc.current hc.loops n)

theorem adds_current {y : Option String → Compile β} (hy : (y (some g)).Adds fs f g m) :
    Adds fs f g m (currentFunction >>= y) := by
  unfold currentFunction
  rw [bind_assoc]
  refine adds_get fun c _ hcurrent _ => ?_
  rw [hcurrent, pure_bind]
  exact hy

/-- A step that writes no line. -/
theorem adds_quiet (hx : x.Keeps) (hcode : ∀ c a c', x c = (.ok a, c') → c'.code = c.code) :
    x.Adds fs f g 0 := by
  intro n c a c' hc hrun
  have hextends := hx c
  rw [hrun] at hextends
  exact hc.silent hextends (by rw [hcode c a c' hrun, List.append_nil]) (List.forall_mem_nil _)

theorem adds_line {l : Line} (h : l.isCall = false) : (line l).Adds fs f g 0 := by
  intro n
  refine brings_modify fun c hc => ?_
  exact hc.silent (keeps_line l c) Array.toList_push (List.forall_mem_singleton.mpr h)

theorem adds_emit {i : Instr} (h : (Line.instr i).isCall = false) :
    (emit i).Adds fs f g 0 := adds_line h

theorem adds_writing {i : Instr} {y : Compile β} (h : (Line.instr i).isCall = false)
    (hy : y.Adds fs f g m) : Adds fs f g m (emit i >>= fun _ => y) :=
  adds_next (adds_emit h) fun _ => hy

theorem adds_placing (l : Label) {y : Compile β} (hy : y.Adds fs f g m) :
    Adds fs f g m (place l >>= fun _ => y) :=
  adds_next (adds_line rfl) fun _ => hy

/-- A step that draws a temporary. -/
theorem adds_taking {x : Compile Reg} {y : Reg → Compile β} (hx : x.Keeps)
    (htemp : ∀ c r c', c.pool.nextTemp < 10 → x c = (.ok r, c') → IsTemp r ∧ c'.code = c.code)
    (hy : ∀ r, IsTemp r → (y r).Adds fs f g m) : Adds fs f g m (x >>= y) := by
  intro n
  refine brings_bind (Q := fun r c => IsTemp r ∧ Compiler.Counted fs f g n c) ?_ fun r c b c' hc =>
    hy r hc.1 n c b c' hc.2
  intro c r c' hc hrun
  obtain ⟨hr, hcode⟩ := htemp c r c' hc.turning hrun
  have hextends := hx c
  rw [hrun] at hextends
  exact ⟨hr, hc.silent hextends (by rw [hcode, List.append_nil]) (List.forall_mem_nil _)⟩

theorem adds_drawing {y : Reg → Compile β} (hy : ∀ r, IsTemp r → (y r).Adds fs f g m) :
    Adds fs f g m (temp >>= y) := by
  refine adds_taking keeps_temp (fun c r c' hc hrun => ?_) hy
  cases hrun
  exact ⟨RegPool.temp_isTemp hc, rfl⟩

theorem adds_drawingApart (avoid : List Reg) {y : Reg → Compile β}
    (hy : ∀ r, IsTemp r → (y r).Adds fs f g m) : Adds fs f g m (tempAvoiding avoid >>= y) := by
  refine adds_taking (keeps_tempAvoiding avoid) (fun c r c' hc hrun => ?_) hy
  cases hrun
  exact ⟨RegPool.tempAvoiding_isTemp avoid 9 _ hc, rfl⟩

theorem adds_minting (stem : Stem) {y : Label → Compile β}
    (hy : ∀ k, (y (.minted stem k)).Adds fs f g m) : Adds fs f g m (mint stem >>= y) := by
  intro n
  refine brings_bind (Q := fun l c => (∃ k, l = .minted stem k) ∧ Compiler.Counted fs f g n c) ?_ ?_
  · intro c l c' hc hrun
    cases hrun
    exact ⟨⟨_, rfl⟩, hc.silent (keeps_mint stem c) (List.append_nil _).symm (List.forall_mem_nil _)⟩
  · rintro l c b c' ⟨⟨k, rfl⟩, hc⟩
    exact hy k n c b c' hc

/-- A step that works on temporaries and tells no device anything. -/
theorem adds_scratch (hx : x.Keeps)
    (hscratch : ∀ k : Compiler, Brings (k.ScratchSince [] []) x fun _ => k.ScratchSince [] []) :
    x.Adds fs f g 0 := by
  intro n c a c' hc hrun
  obtain ⟨lines, hlines, hall⟩ := (hscratch c c a c' (.start hc.turning) hrun).code
  have hextends := hx c
  rw [hrun] at hextends
  exact hc.silent hextends hlines fun l hl => (hall l hl).isCall

theorem adds_inLoop {labels : LoopLabels}
    (hlabels : labels.next.isEntry = false ∧ labels.exit.isEntry = false) (hx : x.Adds fs f g m) :
    (inLoop labels x).Adds fs f g m := by
  intro n c a c' hc hrun
  obtain ⟨c₁, hstep, rfl⟩ := inLoop_eq_ok hrun
  have hopen : (c.openLoop labels).Counted fs f g n :=
    { hc with loops := List.forall_mem_cons.mpr ⟨hlabels, hc.loops⟩ }
  have hclosed := hx n _ a c₁ hopen hstep
  exact { hclosed with loops := fun loop hl => hclosed.loops loop (List.mem_of_mem_tail hl) }

theorem adds_move (d s : Reg) : (move d s).Adds fs f g 0 := adds_ite (adds_emit rfl) (adds_pure ())

/-! ### Calls -/

/-- How often the line of a call of `h` counts as a call of `f`. -/
def hits (f h : String) : Nat := if h = f then 1 else 0

theorem count_cons_hits (f h : String) (hs : List String) :
    (h :: hs).count f = hs.count f + hits f h := by
  simp [List.count_cons, hits]

theorem adds_push (r : Reg) : (push r).Adds fs f g 0 := adds_writing rfl (adds_emit rfl)

/-- A line that calls `h`. -/
theorem adds_calling {l : Line}
    (hl : ∀ n c, Compiler.Counted fs f g n c → l.callOf fs f = decide (h = f)) :
    (line l).Adds fs f g (hits f h) := by
  intro n
  refine brings_modify fun c hc => ?_
  have hhits : [l].countP (Line.callOf fs f) = hits f h := by
    rw [List.countP_singleton, hl n c hc, hits]
    simp
  have hlines : (c.code.push l).toList = c.code.toList ++ [l] := Array.toList_push
  have hextend := hc.extend (keeps_line l c) hlines
  rwa [hhits] at hextend

theorem adds_callPushed {target : Label} (htarget : fs.get? h = some target) (t : Reg)
    (count : Nat) : (callPushed t target count).Adds fs f g (hits f h) := by
  have henter : (jump target).Adds fs f g (hits f h) :=
    adds_calling fun n c hc => Line.callOf_callLine hc.labels htarget
  have hvalue : Adds fs f g 0 (do
      let d ← temp
      move d result
      return d) := adds_drawing fun d _ => adds_next (adds_move d result) fun _ => adds_pure d
  refine adds_minting _ fun k =>
    adds_writing ?_ (adds_next (adds_push t) fun _ => adds_last henter fun _ => ?_)
  · simp [Line.isCall, Label.isEntry]
  · refine adds_placing _ (adds_ite ?_ hvalue)
    exact adds_drawing fun n _ => adds_writing rfl (adds_writing rfl hvalue)

theorem adds_send (hwrite : fs.get? "uart_write" = none) (r : Reg) :
    (emit (.device .outUart r)).Adds fs f g (hits f "uart_write") :=
  adds_calling fun _ _ hc => Line.callOf_send hc.known hwrite r

/-- Among the device functions only `uart_write` is counted. -/
theorem hits_eq_zero (hf : fs.contains f = true ∨ f = "uart_write") (hnone : fs.get? h = none)
    (hne : h ≠ "uart_write") : hits f h = 0 := by
  refine if_neg ?_
  rintro rfl
  rcases hf with hf | hf
  · rw [Table.contains, hnone] at hf
    cases hf
  · exact hne hf

theorem adds_device (hnone : fs.get? h = none) (d : Reg) (args : List Reg) :
    (device d h args).Adds fs f g (hits f h) := by
  refine adds_known fun hf => ?_
  unfold device
  split
  · rw [hits_eq_zero hf hnone (by decide)]
    refine adds_drawing fun t _ =>
      adds_writing rfl (adds_drawing fun u _ => adds_writing rfl (adds_writing rfl ?_))
    exact adds_writing rfl (adds_writing rfl (adds_emit rfl))
  · rw [hits_eq_zero hf hnone (by decide)]
    exact adds_emit rfl
  · rw [hits_eq_zero hf hnone (by decide)]
    exact adds_drawing fun t _ =>
      adds_writing rfl (adds_writing rfl (adds_writing rfl (adds_emit rfl)))
  · rw [hits_eq_zero hf hnone (by decide)]
    exact adds_writing rfl (adds_emit rfl)
  · rw [hits_eq_zero hf hnone (by decide)]
    exact adds_emit rfl
  · exact adds_last (adds_send hnone _) fun _ => adds_emit rfl
  · exact adds_current (adds_throw _)

end Compile

/-! ### Expressions -/

namespace Expr

variable {fs : Table Label} {f g : String}

/-- The code of an expression has a line for each of its calls. -/
def CallsOnce (fs : Table Label) (f g : String) (e : Expr) : Prop :=
  e.compile.Adds fs f g (e.calls.count f)

theorem callsOnce_addressOf {e : Expr} (hindex : ∀ a i, e = .index a i → i.CallsOnce fs f g)
    (hderef : ∀ d, e = .deref d → d.CallsOnce fs f g) : (addressOf e).CallsOnce fs f g := by
  unfold CallsOnce
  cases e with
  | name x =>
    rw [compile]
    refine adds_drawing fun d hd =>
      adds_next (adds_scratch (keeps_addressOfName d x) ?_) fun _ => adds_pure d
    exact fun k => Scratch.brings_addressOfName hd x
  | index a i =>
    rw [compile]
    refine adds_drawing fun d hd => adds_last (hindex a i rfl) fun r => ?_
    exact adds_next (adds_scratch (keeps_addressOfElement d a r) fun k =>
        Scratch.brings_addressOfElement hd a r) fun _ =>
      adds_pure d
  | deref d =>
    rw [compile]
    exact adds_drawing fun _ _ => hderef d rfl
  | _ =>
    rw [compile]
    · exact adds_drawing fun _ _ => adds_current (adds_throw _)
    all_goals simp

theorem adds_compileAll {es : List Expr} (h : ∀ e ∈ es, e.CallsOnce fs f g) :
    (compileAll es).Adds fs f g ((callsAll es).count f) := by
  induction es with
  | nil =>
    rw [compileAll]
    exact adds_pure _
  | cons e es ih =>
    obtain ⟨he, hes⟩ := List.forall_mem_cons.mp h
    rw [compileAll, callsAll, List.count_append]
    exact adds_bind he fun r => adds_last (ih hes) fun _ => adds_pure _

theorem adds_pushAll (t : Reg) {es : List Expr} (h : ∀ e ∈ es, e.CallsOnce fs f g) :
    (pushAll t es).Adds fs f g ((callsAll es).count f) := by
  induction es with
  | nil =>
    rw [pushAll]
    exact adds_pure _
  | cons e es ih =>
    obtain ⟨he, hes⟩ := List.forall_mem_cons.mp h
    rw [pushAll, callsAll, List.count_append, Nat.add_comm]
    refine adds_bind (ih hes) fun _ => adds_last he fun r => ?_
    exact adds_next (adds_move t r) fun _ => adds_push t

theorem callsOnce_call (h : String) {args : List Expr} (hargs : ∀ e ∈ args, e.CallsOnce fs f g) :
    (call h args).CallsOnce fs f g := by
  unfold CallsOnce
  rw [compile, calls, count_cons_hits]
  refine adds_get fun c hc _ _ => ?_
  rw [hc]
  split
  · next target htarget =>
    exact adds_drawing fun t _ => adds_bind (adds_pushAll t hargs) fun _ =>
      adds_callPushed htarget t _
  · next hnone =>
    refine adds_drawing fun d _ => ?_
    split
    · exact adds_current (adds_throw _)
    · refine adds_ite (adds_failing fun P => brings_throw _) ?_
      exact adds_bind (adds_compileAll hargs) fun regs =>
        adds_last (adds_device hnone d regs) fun _ => adds_pure d

/-- Each call of an expression is compiled once. -/
theorem callsOnce (e : Expr) : e.CallsOnce fs f g := by
  induction e using Expr.address_induction with
  | literal n =>
    unfold CallsOnce
    rw [compile]
    exact adds_drawing fun d _ => adds_writing rfl (adds_pure d)
  | name x =>
    unfold CallsOnce
    rw [compile]
    exact adds_scratch (keeps_name x) fun k =>
      brings_mono (Scratch.brings_name x) fun _ _ hc => hc.2
  | call h args ih => exact callsOnce_call h ih
  | index a i ih =>
    unfold CallsOnce
    rw [compile]
    refine adds_last ih fun r => adds_scratch (keeps_loadElement a r) fun k => ?_
    exact brings_mono (Scratch.brings_loadElement a r) fun _ _ hc => hc.2
  | addressOf e hindex hderef => exact callsOnce_addressOf hindex hderef
  | deref e ih =>
    unfold CallsOnce
    rw [compile]
    exact adds_last ih fun a => adds_drawing fun d _ => adds_writing rfl (adds_pure d)
  | unary op e ih =>
    unfold CallsOnce
    rw [compile]
    refine adds_last ih fun a => adds_drawing fun d hd => adds_next ?_ fun _ => adds_pure d
    exact adds_scratch (keeps_unary op d a) fun k => Scratch.brings_unary hd op a
  | binary op l r ihl ihr =>
    unfold CallsOnce
    rw [compile, calls, List.count_append]
    refine adds_bind ihl fun l => adds_last ihr fun r => adds_drawing fun d hd =>
      adds_next ?_ fun _ => adds_pure d
    exact adds_scratch (keeps_binary op d l r) fun k => Scratch.brings_binary hd l r op
  | foreignUnary op e ih =>
    unfold CallsOnce
    rw [compile]
    exact adds_last ih fun _ => adds_drawing fun _ _ => adds_current (adds_throw _)
  | foreignBinary op l r ihl ihr =>
    unfold CallsOnce
    rw [compile, calls, List.count_append]
    exact adds_bind ihl fun _ => adds_last ihr fun _ => adds_drawing fun _ _ =>
      adds_current (adds_throw _)
  | hole =>
    unfold CallsOnce
    rw [compile]
    exact adds_current (adds_throw _)

end Expr

/-! ### Declarations and assignments -/

namespace Compile

variable {fs : Table Label} {f g : String}

/-- A change of the tables that say where names live. -/
theorem adds_places {h : Compiler → Compiler} (hh : ∀ c, (h c).loops = c.loops ∧
      (h c).current = c.current ∧ (h c).functions = c.functions ∧ (h c).labelCount = c.labelCount ∧
      (h c).code = c.code ∧ (h c).data = c.data ∧ (h c).pool.nextTemp = c.pool.nextTemp) :
    (modify h : Compile Unit).Adds fs f g 0 := by
  refine adds_quiet (keeps_places hh) fun c a c' hrun => ?_
  cases hrun
  exact (hh c).2.2.2.2.1

theorem adds_dataLine (l : Line) : (dataLine l).Adds fs f g 0 := by
  refine adds_quiet (keeps_dataLine l) fun c a c' hrun => ?_
  cases hrun
  rfl

theorem adds_zeros (n : Nat) : (zeros n).Adds fs f g 0 := by
  refine adds_quiet (keeps_zeros n) fun c a c' hrun => ?_
  cases hrun
  rfl

theorem adds_labelNumber : labelNumber.Adds fs f g 0 := by
  refine adds_quiet keeps_labelNumber fun c a c' hrun => ?_
  cases hrun
  rfl

theorem adds_allocate (x : String) : (allocate x).Adds fs f g 0 := by
  refine adds_quiet (keeps_allocate x) fun c r c' hrun => ?_
  obtain ⟨pool, -, rfl⟩ := allocate_eq_ok hrun
  rfl

theorem adds_registerOf? (x : String) : (registerOf? x).Adds fs f g 0 := by
  refine adds_get fun c _ _ _ => ?_
  split
  · exact adds_pure _
  · split
    · split
      · exact adds_pure _
      · exact adds_throw _
    · exact adds_pure _

theorem adds_initTo (d : Reg) (e : Expr) : (initTo d e).Adds fs f g (e.calls.count f) :=
  adds_last e.callsOnce fun r => adds_move d r

theorem adds_localVar (d : VarDecl) : (localVar d).Adds fs f g ((Expr.callsOf d.init).count f) := by
  refine adds_next (adds_allocate _) fun r => ?_
  refine adds_next (adds_places fun c => ⟨rfl, rfl, rfl, rfl, rfl, rfl, rfl⟩) fun _ => ?_
  cases d.init with
  | some e => exact adds_initTo r e
  | none => exact adds_emit rfl

theorem adds_registerVar (d : VarDecl) (r : Fin 32) :
    (registerVar d r).Adds fs f g ((Expr.callsOf d.init).count f) := by
  refine adds_ite (adds_failing fun P => brings_throw _) ?_
  refine adds_next (adds_places fun c => ⟨rfl, rfl, rfl, rfl, rfl, rfl, rfl⟩) fun _ => ?_
  cases d.init with
  | some e => exact adds_initTo r e
  | none => exact adds_pure ()

theorem adds_varDecl (d : VarDecl) : (varDecl d).Adds fs f g ((Expr.callsOf d.init).count f) := by
  unfold varDecl
  split
  · exact adds_registerVar d _
  · exact adds_current (adds_localVar d)

theorem adds_localValues (l : Label) (es : List Expr) :
    ∀ i, (localValues l i es).Adds fs f g ((Expr.callsAll es).count f) := by
  induction es with
  | nil => exact fun _ => adds_pure ()
  | cons e es ih =>
    intro i
    rw [localValues, Expr.callsAll, List.count_append]
    refine adds_next (adds_dataLine _) fun _ => ?_
    split
    · rw [Expr.calls, List.count_nil, Nat.zero_add]
      exact ih (i + 1)
    · refine adds_bind e.callsOnce fun v => adds_drawing fun a ha =>
        adds_writing (Line.isCall_mov ha _) ?_
      exact adds_drawing fun n _ =>
        adds_writing rfl (adds_writing rfl (adds_writing rfl (ih (i + 1))))

theorem adds_localArray (d : ArrayDecl) (size : Nat) (h : String) :
    (localArray d size h).Adds fs f g ((Expr.callsAll (d.init.getD [])).count f) := by
  refine adds_next adds_labelNumber fun n => adds_next (adds_dataLine _) fun _ =>
    adds_last (adds_localValues _ _ 0) fun _ => ?_
  exact adds_next (adds_zeros _) fun _ => adds_places fun c => ⟨rfl, rfl, rfl, rfl, rfl, rfl, rfl⟩

theorem adds_arrayDecl (d : ArrayDecl) :
    (arrayDecl d).Adds fs f g ((d.size.calls ++ Expr.callsAll (d.init.getD [])).count f) := by
  unfold arrayDecl
  split
  · next size hsize =>
    rw [hsize, Expr.calls, List.nil_append]
    exact adds_ite (adds_failing fun P => brings_throw _) (adds_current (adds_localArray d size g))
  · exact adds_throw _

theorem adds_pointerDecl (d : PointerDecl) :
    (pointerDecl d).Adds fs f g ((Expr.callsOf d.init).count f) := by
  refine adds_next (adds_allocate _) fun r => ?_
  cases d.init with
  | some e => exact adds_initTo r e
  | none => exact adds_emit rfl

theorem adds_decl (d : Decl) : (decl d).Adds fs f g (d.calls.count f) := by
  cases d with
  | var d => exact adds_varDecl d
  | array d => exact adds_arrayDecl d
  | pointer d => exact adds_pointerDecl d

theorem adds_storeLabel (l : Label) (v : Reg) : (storeLabel l v).Adds fs f g 0 :=
  adds_drawingApart _ fun _ ha => adds_writing (Line.isCall_mov ha _) (adds_emit rfl)

theorem adds_assign (x : String) (e : Expr) : (assign x e).Adds fs f g (e.calls.count f) := by
  refine adds_last e.callsOnce fun v => adds_get fun c _ _ _ => ?_
  split
  · exact adds_storeLabel _ v
  · refine adds_next (adds_registerOf? x) fun r => ?_
    split
    · exact adds_move _ v
    · exact adds_next (adds_allocate x) fun r => adds_move r v

/-- An array without a label is refused. -/
theorem adds_arrayLabel_number (a : String) (n : Int) {β : Type} {m : Nat} {y : Label → Compile β} :
    Adds fs f g m (arrayLabel a (.number n) >>= y) := by
  unfold arrayLabel
  rw [bind_assoc]
  exact adds_current (adds_failing fun P => brings_throw _)

theorem adds_assignIndex (a : String) (i e : Expr) :
    (assignIndex a i e).Adds fs f g (i.calls.count f + e.calls.count f) := by
  refine adds_bind i.callsOnce fun i => adds_last e.callsOnce fun v => adds_get fun c _ _ _ => ?_
  split
  · next p _ =>
    refine adds_drawing fun t ht => ?_
    cases p with
    | label l =>
      refine adds_next (adds_pure l) fun l => adds_next ?_ fun _ => adds_emit rfl
      exact adds_writing (Line.isCall_mov ht _) (adds_emit rfl)
    | number n => exact adds_arrayLabel_number a n
  · exact adds_throw _

theorem adds_assignDeref (p e : Expr) :
    (assignDeref p e).Adds fs f g (p.calls.count f + e.calls.count f) :=
  adds_bind p.callsOnce fun _ => adds_last e.callsOnce fun _ => adds_emit rfl

theorem adds_bump (op : AluOp) (x : String) : (bump op x).Adds fs f g 0 := by
  refine adds_next (adds_registerOf? x) fun r => ?_
  split
  · exact adds_drawing fun _ _ => adds_writing rfl (adds_emit rfl)
  · exact adds_throw _

/-! ### Call statements, returns and raw assembly -/

/-- A call statement compiles the arguments of most device functions twice. -/
theorem adds_callStatement (e : Expr) :
    (callStatement e).Adds fs f g (e.calls.count f + (Stmt.repeatedCall fs e).count f) := by
  unfold callStatement
  split
  · next h args =>
    have hcall : Adds fs f g ((Expr.call h args).calls.count f)
        (do let _ ← (Expr.call h args).compile : Compile Unit) :=
      adds_last (Expr.callsOnce _) fun _ => adds_pure ()
    refine adds_get fun c hc _ _ => ?_
    rw [hc, Stmt.repeatedCall]
    by_cases hf : fs.contains h = true
    · rw [if_pos hf, if_pos (.inl hf)]
      exact hcall
    · rw [if_neg hf]
      by_cases hwrite : h = "uart_write"
      · subst hwrite
        have hnone : fs.get? "uart_write" = none := by simpa [Table.contains] using hf
        rw [if_pos (.inr rfl), List.count_nil, Nat.add_zero, Expr.calls, count_cons_hits]
        refine adds_bind (Expr.adds_compileAll fun e _ => e.callsOnce) fun regs => ?_
        rw [if_pos rfl]
        split
        · exact adds_send hnone _
        · exact adds_throw _
      · rw [if_neg (not_or.mpr ⟨hf, hwrite⟩), Nat.add_comm]
        refine adds_bind (Expr.adds_compileAll fun e _ => e.callsOnce) fun regs => ?_
        rw [if_neg hwrite]
        exact hcall
  · exact adds_throw _

theorem adds_leave : leave.Adds fs f g 0 :=
  adds_current (adds_ite (adds_emit rfl) (adds_writing rfl (adds_writing rfl (adds_emit rfl))))

theorem adds_ret (value : Option Expr) :
    (ret value).Adds fs f g ((Expr.callsOf value).count f) := by
  refine adds_next (adds_places fun c => ⟨rfl, rfl, rfl, rfl, rfl, rfl, rfl⟩) fun _ => ?_
  cases value with
  | some e => exact adds_last e.callsOnce fun r => adds_next (adds_move _ r) fun _ => adds_leave
  | none => exact adds_writing rfl adds_leave

theorem adds_asm (text : String) : (asm text).Adds fs f g 0 := by
  unfold asm
  generalize Text.lines text.toList = ls
  induction ls with
  | nil => exact adds_pure ()
  | cons cs ls ih =>
    refine adds_next ?_ fun _ => ih
    dsimp only
    split
    · exact adds_line rfl
    · exact adds_line rfl

/-! ### Loop heads -/

theorem adds_forStart (init : Option ForInit) :
    (forStart init).Adds fs f g (((init.map ForInit.calls).getD []).count f) := by
  cases init with
  | none => exact adds_pure ()
  | some i =>
    cases i with
    | declare d => exact adds_varDecl d
    | assign x e => exact adds_assign x e

theorem adds_forStep (s : ForStep) : (forStep s).Adds fs f g (s.calls.count f) := by
  cases s with
  | increment x _ => exact adds_bump .add x
  | decrement x _ => exact adds_bump .sub x
  | assign x e => exact adds_assign x e

theorem adds_forNext (next : Label) (step : Option ForStep) :
    (forNext next step).Adds fs f g (((step.map ForStep.calls).getD []).count f) := by
  cases step with
  | none => exact adds_pure ()
  | some st => exact adds_placing next (adds_forStep st)

theorem adds_exitUnless (c : Expr) (stem : Stem) (n : Nat) :
    (exitUnless c (.minted stem n)).Adds fs f g (c.calls.count f) :=
  adds_last c.callsOnce fun _ => adds_emit rfl

theorem adds_forTest (stem : Stem) (n : Nat) (c : Option Expr) :
    (forTest (.minted stem n) c).Adds fs f g ((Expr.callsOf c).count f) := by
  cases c with
  | none => exact adds_pure ()
  | some c =>
    exact adds_last c.callsOnce fun r => adds_drawing fun z _ => adds_writing rfl (adds_emit rfl)

/-- The label of the step of a `for`, or of its start, is no label of a function. -/
theorem adds_stepLabel (n : Nat) (step : Option ForStep) {β : Type} {m : Nat}
    {y : Label → Compile β} (hy : ∀ next : Label, next.isEntry = false → (y next).Adds fs f g m) :
    Adds fs f g m (stepLabel (.minted .forStart n) step >>= y) := by
  cases step with
  | none =>
    rw [stepLabel, pure_bind]
    exact hy _ rfl
  | some st => exact adds_minting _ fun k => hy _ rfl

end Compile

/-! ### Statements -/

namespace Stmt

variable {fs : Table Label} {f g : String}

/-- How often a statement makes the compiler write a call of `f`. -/
def compiledCalls (fs : Table Label) (f : String) (s : Stmt) : Nat :=
  s.calls.count f + (s.repeated fs).count f

theorem adds_compileAll {ss : List Stmt}
    (h : ∀ s ∈ ss, s.compile.Adds fs f g (s.compiledCalls fs f)) :
    (compileAll ss).Adds fs f g ((callsAll ss).count f + (repeatedAll fs ss).count f) := by
  induction ss with
  | nil =>
    rw [compileAll]
    exact adds_pure ()
  | cons s ss ih =>
    obtain ⟨hs, hss⟩ := List.forall_mem_cons.mp h
    have hsum : (callsAll (s :: ss)).count f + (repeatedAll fs (s :: ss)).count f =
        s.compiledCalls fs f + ((callsAll ss).count f + (repeatedAll fs ss).count f) := by
      rw [callsAll, repeatedAll, List.count_append, List.count_append, compiledCalls]
      omega
    rw [compileAll, hsum]
    exact adds_bind hs fun _ => ih hss

/-- A statement that compiles nothing twice. -/
theorem adds_of_repeated {s : Stmt} (hnil : s.repeated fs = [])
    (h : s.compile.Adds fs f g (s.calls.count f)) :
    s.compile.Adds fs f g (s.compiledCalls fs f) := by
  rw [compiledCalls, hnil]
  exact h

theorem adds_compile (s : Stmt) : s.compile.Adds fs f g (s.compiledCalls fs f) := by
  induction s with
  | decl d =>
    refine adds_of_repeated (by simp [repeated]) ?_
    rw [compile, calls]
    exact adds_decl d
  | assign x e =>
    refine adds_of_repeated (by simp [repeated]) ?_
    rw [compile, calls]
    exact adds_assign x e
  | assignIndex a i e =>
    refine adds_of_repeated (by simp [repeated]) ?_
    rw [compile, calls, List.count_append]
    exact adds_assignIndex a i e
  | assignDeref p e =>
    refine adds_of_repeated (by simp [repeated]) ?_
    rw [compile, calls, List.count_append]
    exact adds_assignDeref p e
  | ret value =>
    refine adds_of_repeated (by simp [repeated]) ?_
    rw [compile, calls]
    exact adds_ret value
  | ifThen c s ih =>
    have hsum : (ifThen c s).compiledCalls fs f = c.calls.count f + s.compiledCalls fs f := by
      simp only [compiledCalls, calls, repeated, List.count_append]
      omega
    rw [compile, hsum]
    refine adds_bind c.callsOnce fun r => adds_minting _ fun _ => adds_minting _ fun done =>
      adds_drawing fun z _ => ?_
    exact adds_writing rfl (adds_writing rfl (adds_last ih fun _ => adds_line rfl))
  | ifElse c s t ihs iht =>
    have hsum : (ifElse c s t).compiledCalls fs f =
        c.calls.count f + (s.compiledCalls fs f + t.compiledCalls fs f) := by
      simp only [compiledCalls, calls, repeated, List.count_append]
      omega
    rw [compile, hsum]
    refine adds_bind c.callsOnce fun r => adds_minting _ fun other => adds_minting _ fun done =>
      adds_drawing fun z _ => ?_
    refine adds_writing rfl
      (adds_writing rfl (adds_bind ihs fun _ => adds_writing rfl (adds_placing _ ?_)))
    exact adds_last iht fun _ => adds_line rfl
  | whileLoop c s ih =>
    have hsum : (whileLoop c s).compiledCalls fs f = c.calls.count f + s.compiledCalls fs f := by
      simp only [compiledCalls, calls, repeated, List.count_append]
      omega
    rw [compile, hsum]
    refine adds_minting _ fun start => adds_minting _ fun exit =>
      adds_inLoop ⟨rfl, rfl⟩ (adds_placing _ ?_)
    exact adds_bind (adds_exitUnless c _ _) fun _ => adds_last ih fun _ =>
      adds_writing rfl (adds_line rfl)
  | doWhile s c ih =>
    have hsum : (doWhile s c).compiledCalls fs f = s.compiledCalls fs f + c.calls.count f := by
      simp only [compiledCalls, calls, repeated, List.count_append]
      omega
    rw [compile, hsum]
    refine adds_minting _ fun start => adds_minting _ fun test => adds_minting _ fun exit =>
      adds_inLoop ⟨rfl, rfl⟩ ?_
    refine adds_placing
      _ (adds_bind ih fun _ => adds_placing _ (adds_last (adds_exitUnless c _ _) fun _ => ?_))
    exact adds_writing rfl (adds_line rfl)
  | forLoop init c step s ih =>
    have hsum : (forLoop init c step s).compiledCalls fs f =
        ((init.map ForInit.calls).getD []).count f +
        ((Expr.callsOf c).count
        f + (s.compiledCalls fs f + ((step.map ForStep.calls).getD []).count f)) := by
      simp only [compiledCalls, calls, repeated, List.count_append]
      omega
    rw [compile_forLoop, hsum]
    refine adds_bind (adds_forStart init) fun _ => adds_minting _ fun start =>
      adds_stepLabel start step fun next hnext => ?_
    refine adds_minting _ fun exit =>
      adds_inLoop ⟨hnext, rfl⟩ (adds_placing _ (adds_bind (adds_forTest _ _ c) fun _ => ?_))
    exact adds_bind ih fun _ => adds_last (adds_forNext next step) fun _ =>
      adds_writing rfl (adds_line rfl)
  | block ss ih =>
    rw [compile, compiledCalls, calls, repeated]
    exact adds_compileAll ih
  | call e =>
    rw [compile, compiledCalls, calls, repeated]
    exact adds_callStatement e
  | increment x _ =>
    refine adds_of_repeated (by simp [repeated]) ?_
    rw [compile, calls]
    exact adds_bump .add x
  | decrement x _ =>
    refine adds_of_repeated (by simp [repeated]) ?_
    rw [compile, calls]
    exact adds_bump .sub x
  | breakLoop =>
    refine adds_of_repeated (by simp [repeated]) ?_
    rw [compile, calls]
    refine adds_get fun c _ _ hloops => ?_
    split
    · next loop rest heq =>
      obtain ⟨-, hexit⟩ := hloops loop (heq ▸ List.mem_cons_self)
      exact adds_emit (by simp [Line.isCall, hexit])
    · exact adds_throw _
  | continueLoop =>
    refine adds_of_repeated (by simp [repeated]) ?_
    rw [compile, calls]
    refine adds_get fun c _ _ hloops => ?_
    split
    · next loop rest heq =>
      obtain ⟨hnext, -⟩ := hloops loop (heq ▸ List.mem_cons_self)
      exact adds_emit (by simp [Line.isCall, hnext])
    · exact adds_throw _
  | asm text =>
    refine adds_of_repeated (by simp [repeated]) ?_
    rw [compile, calls]
    exact adds_asm text
  | hole =>
    refine adds_of_repeated (by simp [repeated]) ?_
    rw [compile, calls]
    exact adds_current (adds_throw _)

end Stmt

/-- The lines that a statement adds to the code of a function hold, for each function of the
program, one jump to it for each of its calls and one more for each call that is compiled again; and
so do the lines that send a byte for the device function `uart_write`. So the calls of a function
are compiled once exactly if it is not called among the arguments of a statement that calls a device
function other than `uart_write`. -/
theorem call_lines_count (s : Stmt) (c c' : Compiler) (g : String) (hc : c.Regular)
    (hcurrent : c.current = some g) (h : s.compile c = (.ok (), c')) :
    ∃ lines, c'.code.toList = c.code.toList ++ lines ∧
      (∀ f target, c.functions.get? f = some target →
        lines.count (callLine target) = s.calls.count f + (s.repeated c.functions).count f ∧
        (lines.count (callLine target) = s.calls.count f ↔ f ∉ s.repeated c.functions)) ∧
      (c.functions.get? "uart_write" = none →
        lines.countP Line.isSend =
          s.calls.count "uart_write" + (s.repeated c.functions).count "uart_write" ∧
        (lines.countP Line.isSend = s.calls.count "uart_write" ↔
          "uart_write" ∉ s.repeated c.functions)) := by
  have hextends := s.keeps_compile c
  rw [h] at hextends
  obtain ⟨lines, hlines⟩ := hextends.code
  -- The lines of the statement are what the count of the whole code grew by.
  have hcount (f : String) (hf : c.functions.contains f = true ∨ f = "uart_write") :
      lines.countP (Line.callOf c.functions f) = s.compiledCalls c.functions f := by
    have hafter := s.adds_compile _ c () c' ⟨hc, rfl, hf, hcurrent, rfl⟩ h
    have hsum := hafter.count
    rw [← hlines, List.countP_append] at hsum
    exact Nat.add_left_cancel hsum
  have honce (f : String) {n : Nat} (hn : n = s.compiledCalls c.functions f) :
      n = s.calls.count f + (s.repeated c.functions).count f ∧
      (n = s.calls.count f ↔ f ∉ s.repeated c.functions) := by
    refine ⟨hn, ?_⟩
    rw [hn, Stmt.compiledCalls, Nat.add_eq_left, List.count_eq_zero]
  refine ⟨lines, hlines.symm, fun f target htarget => honce f ?_, fun hnone => honce _ ?_⟩
  · rw [← hcount f (.inl (by rw [Table.contains, htarget]; rfl)), List.count]
    refine List.countP_congr fun l _ => ?_
    rw [Line.callOf, htarget]
  · rw [← hcount _ (.inr rfl)]
    refine List.countP_congr fun l _ => ?_
    rw [Line.callOf, hnone]

/-- A compiler inside of the main function of a program with another function. -/
def callerOfF : Compiler := { functions := ⟨[("f", .function "f")]⟩, current := some "main" }

theorem reached_callerOfF : callerOfF.Reached :=
  .enter (.link .start [{ name := "f", params := [], body := [] }])
    { name := "main", params := [], body := [] }

/-- `if (f()) gpio_write(f(), 1);` -/
def askingTwice : Stmt :=
  .ifThen (.call "f" []) (.call (.call "gpio_write" [.call "f" [], .literal 1]))

theorem askingTwice_call_lines : ∃ (c' : Compiler) (lines : List Line),
    askingTwice.compile callerOfF = (.ok (), c') ∧ c'.code.toList = lines ∧
    lines.count (callLine (.function "f")) = 3 ∧ askingTwice.calls.count "f" = 2 := by
  have hcompile := accepted_of_isOk (s := askingTwice) (k := callerOfF) (by decide +kernel)
  obtain ⟨lines, hlines, hcalls, -⟩ :=
    call_lines_count askingTwice callerOfF _ "main" reached_callerOfF.regular rfl hcompile
  obtain ⟨hcount, -⟩ := hcalls "f" (.function "f") rfl
  exact ⟨_, lines, hcompile, hlines, hcount.trans (by decide +kernel), by decide +kernel⟩

/-- `gpio_write(f(), 1);` calls `f` twice. -/
theorem gpioWrite_calls_twice :
    ∃ c', (Stmt.call (.call "gpio_write" [.call "f" [], .literal 1])).compile callerOfF =
    (.ok (), c') ∧ c'.code.toList.count (callLine (.function "f")) = 2 ∧
    (Stmt.call (.call "gpio_write" [.call "f" [], .literal 1])).calls.count "f" = 1 := by
  exact ⟨_, accepted_of_isOk (by decide +kernel), by decide +kernel, by decide +kernel⟩

end WordC
