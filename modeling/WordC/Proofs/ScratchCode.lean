import WordC.Proofs.LabelLedger
import WordC.Proofs.StackHeight

/-!
# The code of expressions works on temporaries

An expression is worked out in the nine temporaries. As long as it calls none of the program's own
functions, each instruction of its code writes one of them or jumps to a label that was made for the
same code, nothing is stored, and the value ends in a temporary or stands in the register of a
variable that is the whole expression. So running the code leaves the memory and all other registers
as they were: the result of a function, the variables, the stack pointer.
-/

namespace WordC

open Asm Compile Step

/-! ### Names and calls in expressions -/

namespace Expr

mutual

/-- The functions that an expression calls, one entry for each call. -/
def calls : Expr → List String
  | literal _ => []
  | name _ => []
  | call f args => f :: callsAll args
  | index _ i => calls i
  | addressOf e => calls e
  | deref e => calls e
  | unary _ e => calls e
  | binary _ l r => calls l ++ calls r
  | foreignUnary _ e => calls e
  | foreignBinary _ l r => calls l ++ calls r
  | hole => []

def callsAll : List Expr → List String
  | [] => []
  | e :: es => calls e ++ callsAll es

end

mutual

/-- The identifiers of an expression. -/
def names : Expr → List String
  | literal _ => []
  | name x => [x]
  | call _ args => namesAll args
  | index _ i => names i
  | addressOf e => names e
  | deref e => names e
  | unary _ e => names e
  | binary _ l r => names l ++ names r
  | foreignUnary _ e => names e
  | foreignBinary _ l r => names l ++ names r
  | hole => []

def namesAll : List Expr → List String
  | [] => []
  | e :: es => names e ++ namesAll es

end

theorem calls_subset_callsAll {e : Expr} {es : List Expr} (h : e ∈ es) : e.calls ⊆ callsAll es := by
  induction es with
  | nil => cases h
  | cons a es ih =>
    rw [callsAll]
    rcases List.mem_cons.mp h with rfl | h
    · exact List.subset_append_left _ _
    · exact List.Subset.trans (ih h) (List.subset_append_right _ _)

end Expr

/-- The register that a name has, or that it spells if it has none. -/
def Compiler.registerOf? (c : Compiler) (x : String) : Option Reg :=
  (c.pool.allocated.get? x).or ((registerDigits? x).bind Text.decimalNumeral?)

/-! ### Lines that only touch temporaries -/

namespace Asm

/-- The registers that are handed out in turn. -/
def IsTemp (r : Reg) : Prop := 0 < r ∧ r < 10

/-- A label with a number from `low` up to `high`. -/
def Label.MintedIn (low high : Nat) (l : Label) : Prop :=
  ∃ stem n, l = .minted stem n ∧ low ≤ n ∧ n < high

/-- The lines of an expression: a label is placed, a temporary is written, a device out of `outs` is
told a register, or a jump goes to a label with a number from `low` up to `high`. -/
inductive Line.ScratchIn (outs : List DeviceOp) (low high : Nat) : Line → Prop
  | label (l : Label) : Line.ScratchIn outs low high (.label l)
  | put {i : Instr} {d : Reg} : i.target? = some d → IsTemp d →
      Line.ScratchIn outs low high (.instr i)
  | send {op : DeviceOp} (r : Reg) :
      op ∈ outs → op.delivers = false → Line.ScratchIn outs low high (.instr (.device op r))
  | jump {i : Instr} {l : Label} : (Line.instr i).jumpsTo? = some l → l.MintedIn low high →
    Line.ScratchIn outs low high (.instr i)

theorem Label.MintedIn.mono {low high high' : Nat} {l : Label} (h : l.MintedIn low high)
    (hle : high ≤ high') : l.MintedIn low high' := by
  obtain ⟨stem, n, rfl, hlow, hhigh⟩ := h
  exact ⟨stem, n, rfl, hlow, Nat.lt_of_lt_of_le hhigh hle⟩

theorem Line.ScratchIn.mono {outs : List DeviceOp} {low high high' : Nat} {l : Line}
    (h : l.ScratchIn outs low high) (hle : high ≤ high') : l.ScratchIn outs low high' := by
  cases h with
  | label l => exact .label l
  | put hi hd => exact .put hi hd
  | send r hop hsend => exact .send r hop hsend
  | jump hjump hl => exact .jump hjump (hl.mono hle)

/-- Such a line stores nothing, and the only other register that it may write is the one of the next
instruction. -/
theorem Line.ScratchIn.target {outs : List DeviceOp} {low high : Nat} {i : Instr}
    (h : (Line.instr i).ScratchIn outs low high) :
    i.isStore = false ∧ ∀ d, i.target? = some d → IsTemp d ∨ d = ip := by
  cases h with
  | put hi hd =>
    refine ⟨Instr.isStore_of_target hi, fun e he => .inl ?_⟩
    rw [hi, Option.some.injEq] at he
    exact he ▸ hd
  | send r hop hsend =>
    refine ⟨rfl, fun e he => ?_⟩
    simp [Instr.target?, hsend] at he
  | jump hjump hl =>
    have hi : i.target? = some ip := by
      rcases Line.jump_cases hjump with heq | ⟨c, heq | heq⟩ <;> cases heq <;> rfl
    refine ⟨Instr.isStore_of_target hi, fun e he => .inr ?_⟩
    rw [hi, Option.some.injEq] at he
    exact he.symm

end Asm

namespace RegPool

theorem temp_isTemp {p : RegPool} (h : p.nextTemp < 10) : IsTemp p.temp.1 := by
  refine ⟨p.temp_fst_pos, ?_⟩
  show (if p.nextTemp = 0 then 1 else p.nextTemp) < 10
  split <;> omega

theorem tempAvoiding_isTemp (avoid : List Reg) (tries : Nat) :
    ∀ p : RegPool, p.nextTemp < 10 → IsTemp (tempAvoiding avoid tries p).1 := by
  induction tries with
  | zero => exact fun p hp => temp_isTemp hp
  | succ n ih =>
    intro p hp
    show IsTemp (if p.temp.1 ∈ avoid then tempAvoiding avoid n p.temp.2 else p.temp).1
    split
    · exact ih p.temp.2 p.temp_snd_lt
    · exact temp_isTemp hp

theorem tempAvoiding_allocated (avoid : List Reg) (tries : Nat) :
    ∀ p : RegPool, (tempAvoiding avoid tries p).2.allocated = p.allocated := by
  induction tries with
  | zero => exact fun p => rfl
  | succ n ih =>
    intro p
    show (if p.temp.1 ∈ avoid then tempAvoiding avoid n p.temp.2 else p.temp).2.allocated =
      p.allocated
    split
    · exact ih p.temp.2
    · rfl

end RegPool

/-- Since the state `k` only such lines were written, and no variable got a register. The labels
`known` were made since. -/
structure Compiler.ScratchSince (k : Compiler) (outs : List DeviceOp) (known : List Label)
    (c : Compiler) : Prop where
  turning : c.pool.nextTemp < 10
  allocated : c.pool.allocated = k.pool.allocated
  globals : c.globals = k.globals
  functions : c.functions = k.functions
  labels : k.labelCount ≤ c.labelCount
  known : ∀ l ∈ known, l.MintedIn k.labelCount c.labelCount
  code : ∃ lines, c.code.toList = k.code.toList ++ lines ∧
    ∀ l ∈ lines, l.ScratchIn outs k.labelCount c.labelCount

namespace Compiler.ScratchSince

variable {k c : Compiler} {outs : List DeviceOp} {known : List Label}

theorem start (h : k.pool.nextTemp < 10) : k.ScratchSince outs [] k where
  turning := h
  allocated := rfl
  globals := rfl
  functions := rfl
  labels := Nat.le_refl _
  known := List.forall_mem_nil _
  code := ⟨[], (List.append_nil _).symm, List.forall_mem_nil _⟩

theorem pool (h : k.ScratchSince outs known c) {p : RegPool} (hp : p.nextTemp < 10)
    (hallocated : p.allocated = c.pool.allocated) :
    k.ScratchSince outs known { c with pool := p } :=
  { h with turning := hp, allocated := hallocated.trans h.allocated }

theorem line (h : k.ScratchSince outs known c) {l : Line}
    (hl : l.ScratchIn outs k.labelCount c.labelCount) :
    k.ScratchSince outs known { c with code := c.code.push l } := by
  obtain ⟨lines, hcode, hlines⟩ := h.code
  refine { h with code := ⟨lines ++ [l], ?_, ?_⟩ }
  · rw [Array.toList_push, hcode, List.append_assoc]
  · exact List.forall_mem_append.mpr ⟨hlines, List.forall_mem_singleton.mpr hl⟩

theorem mint (h : k.ScratchSince outs known c) (stem : Stem) :
    k.ScratchSince outs (.minted stem c.labelCount :: known) { c with
      labelCount := c.labelCount + 1 } := by
  have hle : c.labelCount ≤ c.labelCount + 1 := Nat.le_succ _
  obtain ⟨lines, hcode, hlines⟩ := h.code
  refine { h with labels := Nat.le_succ_of_le h.labels, known := ?_, code := ⟨lines, hcode, ?_⟩ }
  · refine List.forall_mem_cons.mpr
      ⟨⟨stem, _, rfl, h.labels, Nat.lt_succ_self _⟩, fun l hl => (h.known l hl).mono hle⟩
  · exact fun l hl => (hlines l hl).mono hle

end Compiler.ScratchSince

/-! ### Steps -/

namespace Scratch

variable {α β : Type} {k : Compiler} {outs : List DeviceOp} {known : List Label}
  {R : β → Compiler → Prop}

theorem drawing {f : Reg → Compile β}
    (hf : ∀ r, IsTemp r → Brings (k.ScratchSince outs known) (f r) R) :
    Brings (k.ScratchSince outs known) (temp >>= f) R := by
  refine brings_bind (Q := fun r c => IsTemp r ∧ k.ScratchSince outs known c) ?_ fun r c b c' hc =>
    hf r hc.1 c b c' hc.2
  exact brings_modifyGet fun c hc =>
    ⟨RegPool.temp_isTemp hc.turning, hc.pool c.pool.temp_snd_lt rfl⟩

/-- An instruction that writes a temporary. -/
theorem puts {i : Instr} {d : Reg} (hi : i.target? = some d) (hd : IsTemp d) :
    Brings (k.ScratchSince outs known) (emit i) fun _ => k.ScratchSince outs known :=
  brings_modify fun _ hc => hc.line (.put hi hd)

theorem putting {i : Instr} {d : Reg} (hi : i.target? = some d) (hd : IsTemp d) {y : Compile β}
    (hy : Brings (k.ScratchSince outs known) y R) :
    Brings (k.ScratchSince outs known) (emit i >>= fun _ => y) R :=
  brings_then (puts hi hd) hy

theorem returns {a : α} {P : α → Prop} (ha : P a) : Brings (k.ScratchSince outs known) (pure a)
    fun a c => P a ∧ k.ScratchSince outs known c := brings_pure fun _ hc => ⟨ha, hc⟩

/-- A step that reads the state and leaves it as it is. -/
theorem reading {f : Compiler → Compile β}
    (hf : ∀ c, k.ScratchSince outs known c → Brings (k.ScratchSince outs known) (f c) R) :
    Brings (k.ScratchSince outs known) (get >>= f) R :=
  brings_get fun c hc => brings_at hc (hf c hc)

theorem evaluating {P : α → Prop} {x : Compile α} {f : α → Compile β}
    (hx : Brings (k.ScratchSince outs known) x fun a c => P a ∧ k.ScratchSince outs known c)
    (hf : ∀ a, P a → Brings (k.ScratchSince outs known) (f a) R) :
    Brings (k.ScratchSince outs known) (x >>= f) R :=
  brings_bind hx fun a c b c' hc => hf a hc.1 c b c' hc.2

theorem failing (f : Option String → CompileError) :
    Brings (k.ScratchSince outs known) (do throw (f (← currentFunction))) R :=
  reading fun _ _ => brings_returning (brings_throw _)

/-! ### Operators -/

instance operatorRules :
    OperatorRules IsTemp (· ∈ outs) fun known _ => k.ScratchSince outs known where
  draw {_ _ c} hc := ⟨RegPool.temp_isTemp hc.turning, hc.pool c.pool.temp_snd_lt rfl⟩
  drawApart avoid hc := ⟨RegPool.tempAvoiding_isTemp avoid 9 _ hc.turning,
    hc.pool (RegPool.tempAvoiding_snd_lt avoid 9 _) (RegPool.tempAvoiding_allocated avoid 9 _)⟩
  put hc hi hd _ := hc.line (.put hi hd)
  send r hc hop hS := hc.line (.send r hS hop)
  jump hc hi hl := hc.line (.jump hi (hc.known _ hl))
  mint {_ _ _ stem} hc _ := hc.mint stem
  place hc := hc.line (.label _)
  forget hc hsub := { hc with known := fun l hl => hc.known l (hsub hl) }

/-- What operators do to labels plays no role here. -/
theorem brings_of_books {x : Compile Unit}
    (h : Books (fun known _ => k.ScratchSince outs known) known [] [] x) :
    Brings (k.ScratchSince outs known) x fun _ => k.ScratchSince outs known := h.brings

theorem brings_binary {d : Reg} (hd : IsTemp d) (l r : Reg) (op : BinOp) :
    Brings (k.ScratchSince outs known) (binary op d l r) fun _ => k.ScratchSince outs known :=
  brings_of_books (books_binary hd l r op)

theorem brings_unary {d : Reg} (hd : IsTemp d) (op : UnaryOp) (a : Reg) :
    Brings (k.ScratchSince outs known) (unary op d a) fun _ => k.ScratchSince outs known :=
  brings_of_books (books_unary hd op a)

theorem brings_device {d : Reg} (hd : IsTemp d) (f : String) (args : List Reg)
    (houts : ∀ op : DeviceOp, op.delivers = false → op ∈ outs) :
    Brings (k.ScratchSince outs known) (device d f args) fun _ => k.ScratchSince outs known :=
  brings_of_books (books_device hd houts f args)

/-! ### Places -/

theorem brings_loadLabel (l : Label) : Brings (k.ScratchSince outs known) (loadLabel l)
    fun r c => IsTemp r ∧ k.ScratchSince outs known c :=
  drawing fun _ hd => drawing fun _ ha => putting rfl ha (putting rfl hd (returns hd))

theorem brings_loadElement (a : String) (i : Reg) :
    Brings (k.ScratchSince outs known) (loadElement a i) fun r c => IsTemp r ∧
    k.ScratchSince outs known c := by
  refine reading fun c _ => ?_
  split
  · next p _ =>
    cases p with
    | label l =>
      refine drawing fun d hd => drawing fun t ht => brings_returning ?_
      rw [elementAddress, bind_assoc]
      exact putting rfl ht (putting rfl ht (putting rfl hd (returns hd)))
    | number n => exact drawing fun d _ => drawing fun t _ => brings_failing (brings_throw _)
  · exact brings_throw _

theorem brings_addressOfElement {d : Reg} (hd : IsTemp d) (a : String) (i : Reg) :
    Brings (k.ScratchSince outs known) (addressOfElement d a i)
    fun _ => k.ScratchSince outs known := by
  refine reading fun c _ => ?_
  split
  · next p _ =>
    cases p with
    | label l =>
      refine drawing fun t ht => brings_returning ?_
      rw [elementAddress, bind_assoc]
      exact putting rfl ht (putting rfl ht (puts rfl hd))
    | number n => exact drawing fun t _ => brings_failing (brings_throw _)
  · exact brings_throw _

theorem brings_addressOfName {d : Reg} (hd : IsTemp d) (x : String) :
    Brings (k.ScratchSince outs known) (addressOfName d x) fun _ => k.ScratchSince outs known := by
  refine reading fun c _ => ?_
  split
  · exact puts rfl hd
  · refine putting rfl hd (brings_ite ?_ (brings_pure fun _ hc => hc))
    exact drawing fun t ht => putting rfl ht (puts rfl hd)
  · split
    · next p _ =>
      cases p with
      | label l => exact brings_returning (puts rfl hd)
      | number n => exact brings_failing (failing _)
    · exact brings_throw _

/-- A variable is used in its register, a global is loaded. -/
theorem brings_name (x : String) :
    Brings (k.ScratchSince outs known) (name x) fun r c =>
      (IsTemp r ∨ k.registerOf? x = some r) ∧ k.ScratchSince outs known c := by
  refine reading fun c hc => ?_
  split
  · exact brings_mono (brings_loadLabel _) fun _ _ h => ⟨.inl h.1, h.2⟩
  · have hregister : Brings (k.ScratchSince outs known) (registerOf? x) fun found c =>
        (∀ r, found = some r → k.registerOf? x = some r) ∧ k.ScratchSince outs known c := by
      refine reading fun c hc => ?_
      rw [hc.allocated]
      split
      · next r hr =>
        refine returns fun r' hr' => ?_
        rw [Compiler.registerOf?, hr]
        exact hr'
      · next hnone =>
        split
        · next digits hdigits =>
          split
          · next n hn =>
            refine returns fun r' hr' => ?_
            rw [Compiler.registerOf?, hnone, hdigits]
            exact hn.trans hr'
          · exact brings_throw _
        · exact returns fun r' hr' => by cases hr'
    refine evaluating hregister fun found hfound => ?_
    split
    · exact returns (.inr (hfound _ rfl))
    · exact failing _

end Scratch

/-! ### Expressions -/

/-- A register that the value of an expression may stand in: a temporary, or the register of one of
its names. -/
def Expr.EndsIn (c : Compiler) (e : Expr) (r : Reg) : Prop :=
  IsTemp r ∨ ∃ x ∈ e.names, c.registerOf? x = some r

namespace Expr

open Scratch

variable {k : Compiler} {outs : List DeviceOp} {known : List Label}

/-- The compiler works an expression out in temporaries. -/
def Scratches (outs : List DeviceOp) (k : Compiler) (e : Expr) : Prop :=
  ∀ known, Brings (k.ScratchSince outs known) e.compile fun r c =>
    e.EndsIn k r ∧ k.ScratchSince outs known c

theorem scratches_of_temp {e : Expr} (h : ∀ known, Brings (k.ScratchSince outs known) e.compile
      fun r c => IsTemp r ∧ k.ScratchSince outs known c) : e.Scratches outs k := fun known =>
  brings_mono (h known) fun _ _ hc => ⟨.inl hc.1, hc.2⟩

theorem scratches_addressOf {e : Expr} (hindex : ∀ a i, e = .index a i → i.Scratches outs k)
    (hderef : ∀ d, e = .deref d → d.Scratches outs k) : (addressOf e).Scratches outs k := by
  cases e with
  | name x =>
    refine scratches_of_temp fun known => ?_
    rw [compile]
    exact drawing fun d hd => brings_then (brings_addressOfName hd x) (returns hd)
  | index a i =>
    refine scratches_of_temp fun known => ?_
    rw [compile]
    refine drawing fun d hd => evaluating (hindex a i rfl known) fun r _ => ?_
    exact brings_then (brings_addressOfElement hd a r) (returns hd)
  | deref d =>
    intro known
    rw [compile]
    exact drawing fun _ _ => hderef d rfl known
  | _ =>
    intro known
    rw [compile]
    · exact drawing fun _ _ => failing _
    all_goals simp

theorem brings_compileAll {es : List Expr} (h : ∀ e ∈ es, e.Scratches outs k) :
    Brings (k.ScratchSince outs known) (compileAll es) fun _ => k.ScratchSince outs known := by
  induction es with
  | nil =>
    rw [compileAll]
    exact brings_pure fun _ hc => hc
  | cons e es ih =>
    obtain ⟨he, hes⟩ := List.forall_mem_cons.mp h
    rw [compileAll]
    refine evaluating (he known) fun r _ => brings_bind (ih hes) fun _ => brings_pure fun _ hc => hc

theorem scratches_call {f : String} {args : List Expr}
    (houts : ∀ op : DeviceOp, op.delivers = false → op ∈ outs) (hf : k.functions.get? f = none)
    (h : ∀ e ∈ args, e.Scratches outs k) : (call f args).Scratches outs k := by
  refine scratches_of_temp fun known => ?_
  rw [compile]
  refine reading fun c hc => ?_
  rw [hc.functions, hf]
  refine drawing fun d hd => ?_
  split
  · exact failing _
  · refine brings_ite (brings_failing (brings_throw _)) ?_
    exact brings_bind (brings_compileAll h) fun regs =>
      brings_then (brings_device hd f regs houts) (returns hd)

/-- An expression that calls none of the program's own functions is worked out in temporaries. -/
theorem scratches_compile (houts : ∀ op : DeviceOp, op.delivers = false → op ∈ outs) (e : Expr)
    (h : ∀ f ∈ e.calls, k.functions.get? f = none) : e.Scratches outs k := by
  induction e using Expr.address_induction with
  | literal n =>
    refine scratches_of_temp fun known => ?_
    rw [compile]
    exact drawing fun d hd => putting rfl hd (returns hd)
  | name x =>
    intro known
    rw [compile]
    refine brings_mono (brings_name x) fun r c hc => ⟨hc.1.imp_right fun hr => ⟨x, ?_, hr⟩, hc.2⟩
    rw [names]
    exact List.mem_singleton_self x
  | call f args ih =>
    rw [calls] at h
    obtain ⟨hf, hargs⟩ := List.forall_mem_cons.mp h
    exact scratches_call houts hf fun e he => ih e he fun g hg =>
      hargs g (calls_subset_callsAll he hg)
  | index a i ih =>
    refine scratches_of_temp fun known => ?_
    rw [compile]
    exact evaluating (ih h known) fun r _ => brings_loadElement a r
  | addressOf e hindex hderef =>
    refine scratches_addressOf (fun a i he => hindex a i he ?_) fun d he => hderef d he ?_
    · subst he
      exact h
    · subst he
      exact h
  | deref e ih =>
    refine scratches_of_temp fun known => ?_
    rw [compile]
    exact evaluating (ih h known) fun a _ => drawing fun d hd => putting rfl hd (returns hd)
  | unary op e ih =>
    refine scratches_of_temp fun known => ?_
    rw [compile]
    exact evaluating (ih h known) fun a _ => drawing fun d hd =>
      brings_then (brings_unary hd op a) (returns hd)
  | binary op l r ihl ihr =>
    rw [calls, List.forall_mem_append] at h
    refine scratches_of_temp fun known => ?_
    rw [compile]
    refine evaluating (ihl h.1 known) fun l _ => evaluating (ihr h.2 known) fun r _ =>
      drawing fun d hd => ?_
    exact brings_then (brings_binary hd l r op) (returns hd)
  | foreignUnary op e ih =>
    intro known
    rw [compile]
    exact evaluating (ih h known) fun _ _ => drawing fun _ _ => failing _
  | foreignBinary op l r ihl ihr =>
    rw [calls, List.forall_mem_append] at h
    intro known
    rw [compile]
    exact evaluating (ihl h.1 known) fun _ _ => evaluating (ihr h.2 known) fun _ _ =>
      drawing fun _ _ => failing _
  | hole =>
    intro known
    rw [compile]
    exact failing _

end Expr

/-! ### Running the code -/

namespace Asm.Cpu

variable {code lines : List Line} {outs : List DeviceOp} {low high pos n : Nat}
  {inputs : Nat → BitVec 32} {s t : Cpu}

/-- What the code of an expression leaves alone. -/
structure SparesVariables (s t : Cpu) : Prop where
  memory : t.memory = s.memory
  regs : ∀ q, ¬IsTemp q → q ≠ ip → t.regs q = s.regs q

theorem SparesVariables.refl (s : Cpu) : s.SparesVariables s := ⟨rfl, fun _ _ _ => rfl⟩

theorem SparesVariables.trans {u : Cpu} (h : s.SparesVariables t) (h' : t.SparesVariables u) :
    s.SparesVariables u :=
  ⟨h'.memory.trans h.memory, fun q hq hip => (h'.regs q hq hip).trans (h.regs q hq hip)⟩

theorem step_scratch {l : Line} {input : BitVec 32} (hl : code[s.pc]? = some l)
    (hscratch : l.ScratchIn outs low high) (h : s.step code input = some t) :
    s.SparesVariables t := by
  cases l with
  | instr i =>
    obtain ⟨hstore, htarget⟩ := hscratch.target
    rw [step_instr hl] at h
    refine ⟨exec_memory h hstore, fun q hq hip => exec_regs h fun heq => ?_⟩
    rcases htarget q heq with htemp | rfl
    · exact hq htemp
    · exact hip rfl
  | label l =>
    unfold step at h
    rw [hl] at h
    cases h
    exact ⟨rfl, fun _ _ _ => rfl⟩
  | comment | blank | verbatim | word | directive => cases hscratch

/-- A run that does not leave such lines before its end. -/
theorem run_scratch (hplaced : Placed code pos lines)
    (hlines : ∀ l ∈ lines, l.ScratchIn outs low high)
    (hinside : ∀ m < n, ∀ u, run code inputs s m = some u → ∃ i < lines.length, u.pc = pos + i)
    (h : run code inputs s n = some t) : s.SparesVariables t := by
  induction n generalizing t with
  | zero =>
    cases h
    exact .refl s
  | succ n ih =>
    obtain ⟨u, hu, hstep⟩ := Option.bind_eq_some_iff.mp h
    obtain ⟨i, hi, hpc⟩ := hinside n (Nat.lt_succ_self n) u hu
    have hline : code[u.pc]? = some lines[i] := hpc ▸ hplaced.get hi
    have hfirst := ih (fun m hm => hinside m (Nat.lt_succ_of_lt hm)) hu
    exact hfirst.trans (step_scratch hline (hlines _ (List.getElem_mem hi)) hstep)

end Asm.Cpu

/-- The instructions that tell a device something. -/
def Asm.DeviceOp.sending : List DeviceOp := [.setGpio, .outGpio, .setUart, .outUart]

theorem Asm.DeviceOp.mem_sending {op : DeviceOp} (h : op.delivers = false) : op ∈ sending := by
  cases op with
  | getGpio | inUart => cases h
  | _ => decide

/-- The code of an expression that calls none of the program's own functions writes temporaries,
jumps to labels made for it and stores nothing, its value ends in a temporary or in the register of
one of its names, and running it changes neither the memory nor a register other than the
temporaries. -/
theorem expression_code_spares_variables (e : Expr) (c c' : Compiler) (r : Reg)
    (hturning : c.pool.nextTemp < 10) (hcalls : ∀ f ∈ e.calls, c.functions.get? f = none)
    (h : e.compile c = (.ok r, c')) : ∃ lines, c'.code.toList = c.code.toList ++ lines ∧
      (∀ l ∈ lines, l.ScratchIn DeviceOp.sending c.labelCount c'.labelCount) ∧ e.EndsIn c r ∧
      ∀ code pos, Placed code pos lines → ∀ inputs s t n, Cpu.run code inputs s n = some t →
        (∀ m < n, ∀ u, Cpu.run code inputs s m = some u → ∃ i < lines.length, u.pc = pos + i) →
        t.memory = s.memory ∧ ∀ q, q = 0 ∨ 10 ≤ q ∧ q ≤ 30 → t.regs q = s.regs q := by
  obtain ⟨hends, hsince⟩ :=
    e.scratches_compile (fun _ => DeviceOp.mem_sending) hcalls [] c r c' (.start hturning) h
  obtain ⟨lines, hcode, hlines⟩ := hsince.code
  refine ⟨lines, hcode, hlines, hends, fun code pos hplaced inputs s t n hrun hinside => ?_⟩
  have hspares := Cpu.run_scratch hplaced hlines hinside hrun
  refine ⟨hspares.memory, fun q hq => hspares.regs q ?_ ?_⟩
  · rintro ⟨hpos, hlt⟩
    rcases hq with rfl | ⟨hle, -⟩
    · exact Nat.lt_irrefl 0 hpos
    · exact absurd hlt (Nat.not_lt.mpr hle)
  · rintro rfl
    exact absurd hq (by decide)

/-- `r12 * 3`, compiled first of all. -/
theorem product_code_spares_variables : ∃ (c' : Compiler) (lines : List Line),
    (Expr.binary .mul (.name "r12") (.literal 3)).compile {} = (.ok 2, c') ∧
    c'.code.toList = lines ∧ lines.length = 12 ∧
      (∀ l ∈ lines, l.ScratchIn DeviceOp.sending 0 2) ∧
      ∀ inputs s t n, Cpu.run lines inputs s n = some t →
        (∀ m < n, ∀ u, Cpu.run lines inputs s m = some u → ∃ i < lines.length, u.pc = 0 + i) →
        t.regs 12 = s.regs 12 := by
  have hcompile : (Expr.binary .mul (.name "r12") (.literal 3)).compile {} =
      (.ok 2, ((Expr.binary .mul (.name "r12") (.literal 3)).compile {}).2) := rfl
  obtain ⟨lines, hcode, hlines, -, hrun⟩ :=
    expression_code_spares_variables _ {} _ 2 (by decide) (List.forall_mem_nil _) hcompile
  refine ⟨_, lines, hcompile, hcode, ?_, hlines, fun inputs s t n h hinside => ?_⟩
  · exact congrArg List.length hcode.symm
  · exact (hrun lines 0 (List.prefix_refl lines) inputs s t n h hinside).2 12 (by decide)

end WordC
