import WordC.Proofs.FunctionCode
import WordC.Proofs.LabelLedger

/-!
# The numbers that code moves

An instruction that moves a number carries the number itself. Most of them are minus one, zero or
one, which the compiler needs for operators, tests and starting values. The others come from the
text: a literal, the number of arguments of a call, the place of an element or a parameter, and the
slot of a variable whose address is taken. Which slot that is depends on the declarations in front,
so the numbers of an expression are read off with a frame beside it that says where names live. The
frame says also which names are functions, since arguments of others are not pushed.
-/

namespace WordC

open Asm Compile Step

/-! ### Numbers in lines -/

namespace Asm

def constants (lines : List Line) : List Int := lines.filterMap Line.constant?

theorem constants_append (xs ys : List Line) :
    constants (xs ++ ys) = constants xs ++ constants ys := List.filterMap_append

theorem mem_constants_iff {v : Int} {lines : List Line} :
    v ∈ constants lines ↔ ∃ r, Line.instr (.mov r (.imm v)) ∈ lines := by
  unfold constants
  rw [List.mem_filterMap]
  constructor
  · rintro ⟨l, hl, hv⟩
    unfold Line.constant? at hv
    split at hv
    · next r w =>
      cases hv
      exact ⟨r, hl⟩
    · cases hv
  · rintro ⟨r, hl⟩
    exact ⟨_, hl, rfl⟩

theorem slight_of_mem {v : Int} {l : Line} (hl : l.isSlight = true)
    (hv : v ∈ constants [l]) : Slight v := by
  obtain ⟨r, hr⟩ := mem_constants_iff.mp hv
  obtain rfl := List.mem_singleton.mp hr
  simpa [Line.isSlight, Line.constant?] using hl

end Asm

/-! ### Frames -/

/-- What the numbers of a piece of code depend on beside its text: the functions of the program, the
places of the names declared so far, the number of slots that are taken, and the function around it.
-/
structure Frame where
  functions : Table Label := {}
  places : Table VarPlace := {}
  slots : Nat := 0
  current : Option String := none

def Compiler.frame (c : Compiler) : Frame := ⟨c.functions, c.varPlaces, c.stackOffset, c.current⟩

/-- The slot of a name, if it has one. -/
def Frame.slotOf (F : Frame) (x : String) : List Int :=
  match F.places.get? x with
  | some (.slot n) => [(n : Int)]
  | _ => []

/-- The number of arguments that a call takes off the stack. -/
def Frame.countOf (F : Frame) (f : String) (count : Nat) : List Int :=
  if F.functions.contains f then [(count : Int)] else []

namespace Expr

mutual

/-- The numbers that the code of an expression moves. -/
def constants (F : Frame) : Expr → List Int
  | literal n => [Word.wrap n]
  | name _ => []
  | index _ i => constants F i
  | addressOf (name x) => F.slotOf x
  | addressOf (index _ i) => constants F i
  | addressOf (deref e) => constants F e
  | addressOf _ => []
  | deref e => constants F e
  | unary _ e => constants F e
  | binary _ l r => constants F l ++ constants F r
  | call f args => constantsAll F args ++ F.countOf f args.length
  | foreignUnary _ e => constants F e
  | foreignBinary _ l r => constants F l ++ constants F r
  | hole => []

def constantsAll (F : Frame) : List Expr → List Int
  | [] => []
  | e :: es => constants F e ++ constantsAll F es

end

/-- The numbers of an expression that may be left out. -/
def constantsOf (F : Frame) (e : Option Expr) : List Int := (e.map (constants F)).getD []

end Expr

/-! ### Steps -/

/-- A state whose code has moved the numbers `N`, and no others but slight ones. -/
structure Compiler.Carrying (F : Frame) (N : List Int) (c : Compiler) : Prop where
  frame : c.frame = F
  moved : ∀ v, ¬ Slight v → (v ∈ constants c.code.toList ↔ v ∈ N)
  data : constants c.data.toList = []

theorem Compiler.Carrying.slight {F : Frame} {N : List Int} {c : Compiler} (hc : c.Carrying F N)
    {l : Line} (h : l.isSlight = true) : { c with code := c.code.push l }.Carrying F N := by
  refine ⟨hc.frame, fun v hv => ?_, hc.data⟩
  have hnot : v ∉ constants [l] := fun hmem => hv (slight_of_mem h hmem)
  rw [Array.toList_push, constants_append, List.mem_append, or_iff_left hnot, hc.moved v hv]

/-- A step from the frame `F` to the frame `G` whose code moves the numbers `M`. -/
def Compile.Carries {α : Type} (F G : Frame) (M : List Int) (x : Compile α) : Prop :=
  ∀ N, Brings (Compiler.Carrying F N) x fun _ => Compiler.Carrying G (N ++ M)

namespace Compile

variable {α β : Type} {F G H : Frame} {M M' : List Int}

variable {x : Compile α} {y : α → Compile β}

theorem carries_bind (hx : x.Carries F G M) (hy : ∀ a, (y a).Carries G H M') :
    Carries F H (M ++ M') (x >>= y) := by
  intro N
  refine brings_bind (hx N) fun a => ?_
  have hnext := hy a (N ++ M)
  rwa [List.append_assoc] at hnext

theorem carries_next (hx : x.Carries F G []) (hy : ∀ a, (y a).Carries G H M) :
    Carries F H M (x >>= y) := carries_bind hx hy

theorem carries_last (hx : x.Carries F G M) (hy : ∀ a, (y a).Carries G H []) :
    Carries F H M (x >>= y) := by
  have hbind := carries_bind hx hy
  rwa [List.append_nil] at hbind

/-- Only which numbers there are counts, and not the slight ones. -/
theorem carries_congr (hx : x.Carries F G M) (h : ∀ v, ¬ Slight v → (v ∈ M ↔ v ∈ M')) :
    x.Carries F G M' := by
  intro N c a c' hc hrun
  obtain ⟨hframe, hmoved, hdata⟩ := hx N c a c' hc hrun
  refine ⟨hframe, fun v hv => ?_, hdata⟩
  rw [hmoved v hv, List.mem_append, List.mem_append, h v hv]

/-- Numbers that are moved once more. -/
theorem carries_again (hx : x.Carries F G M) (hy : ∀ a, (y a).Carries G H M) :
    Carries F H M (x >>= y) := carries_congr (carries_bind hx hy) fun v _ => by simp

theorem carries_pure (a : α) : (pure a : Compile α).Carries F F [] :=
  fun N => brings_pure fun _ hc => by rwa [List.append_nil]

theorem carries_throw (e : CompileError) : (throw e : Compile α).Carries F G M :=
  fun _ => brings_throw e

/-- Nothing comes behind an error. -/
theorem carries_failing (e : CompileError) : Carries F G M (throw e >>= y) :=
  fun _ => brings_failing (brings_throw e)

theorem carries_ite {p : Prop} [Decidable p] {y : Compile α} (hx : x.Carries F G M)
    (hy : y.Carries F G M) : Carries F G M (if p then x else y) := fun N => brings_ite (hx N) (hy N)

theorem carries_get {y : Compiler → Compile β} (hy : ∀ c, c.frame = F → (y c).Carries F G M) :
    Carries F G M (get >>= y) := fun N =>
  brings_get fun c hc => brings_at hc (hy c hc.frame N)

theorem carries_current {y : Option String → Compile β} (hy : (y F.current).Carries F G M) :
    Carries F G M (currentFunction >>= y) := by
  unfold currentFunction
  rw [bind_assoc]
  refine carries_get fun c hc => ?_
  rw [pure_bind]
  rw [← hc] at hy ⊢
  exact hy

/-- A change of the state that writes no line. -/
theorem carries_modify {f : Compiler → Compiler} (hf : ∀ c, c.frame = F → (f c).frame = G ∧
      (f c).code = c.code ∧ constants (f c).data.toList = constants c.data.toList) :
    (modify f : Compile Unit).Carries F G [] := by
  intro N
  refine brings_modify fun c hc => ?_
  obtain ⟨hframe, hcode, hdata⟩ := hf c hc.frame
  refine ⟨hframe, ?_, hdata.trans hc.data⟩
  rw [hcode, List.append_nil]
  exact hc.moved

/-- A step that leaves code, data and frame as they are. -/
theorem carries_quiet
    (hx : ∀ c a c', x c = (.ok a, c') → c'.frame = c.frame ∧ c'.code = c.code ∧ c'.data = c.data) :
    x.Carries F F [] := by
  intro N c a c' hc hrun
  obtain ⟨hframe, hcode, hdata⟩ := hx c a c' hrun
  refine ⟨hframe.trans hc.frame, ?_, ?_⟩
  · rw [hcode, List.append_nil]
    exact hc.moved
  · rw [hdata]
    exact hc.data

theorem carries_temp : temp.Carries F F [] := by
  apply carries_quiet
  intro c a c' hrun
  cases hrun
  exact ⟨rfl, rfl, rfl⟩

theorem carries_tempAvoiding (avoid : List Reg) : (tempAvoiding avoid).Carries F F [] := by
  apply carries_quiet
  intro c a c' hrun
  cases hrun
  exact ⟨rfl, rfl, rfl⟩

theorem carries_labelNumber : labelNumber.Carries F F [] := by
  apply carries_quiet
  intro c a c' hrun
  cases hrun
  exact ⟨rfl, rfl, rfl⟩

theorem carries_mint (stem : Stem) : (mint stem).Carries F F [] :=
  carries_next carries_labelNumber fun _ => carries_pure _

theorem carries_drawing {y : Reg → Compile β} (hy : ∀ r, (y r).Carries F G M) :
    Carries F G M (temp >>= y) := carries_next carries_temp hy

theorem carries_drawingApart (avoid : List Reg) {y : Reg → Compile β}
    (hy : ∀ r, (y r).Carries F G M) : Carries F G M (tempAvoiding avoid >>= y) :=
  carries_next (carries_tempAvoiding avoid) hy

theorem carries_minting (stem : Stem) {y : Label → Compile β} (hy : ∀ l, (y l).Carries F G M) :
    Carries F G M (mint stem >>= y) :=
  carries_next (carries_mint stem) hy

theorem carries_allocate (x : String) : (allocate x).Carries F F [] := by
  apply carries_quiet
  intro c r c' hrun
  obtain ⟨pool, -, rfl⟩ := allocate_eq_ok hrun
  exact ⟨rfl, rfl, rfl⟩

theorem carries_registerOf? (x : String) : (registerOf? x).Carries F F [] := by
  refine carries_get fun c _ => ?_
  split
  · exact carries_pure _
  · split
    · split
      · exact carries_pure _
      · exact carries_throw _
    · exact carries_pure _

/-! ### Lines -/

theorem carries_line {l : Line} : (line l).Carries F F (constants [l]) := by
  intro N
  refine brings_modify fun c hc => ⟨hc.frame, fun v hv => ?_, hc.data⟩
  rw [Array.toList_push, constants_append, List.mem_append, List.mem_append, hc.moved v hv]

/-- A line of which nothing has to be said. -/
theorem carries_plain {l : Line} (h : l.isSlight = true) : (line l).Carries F F [] := by
  intro N
  rw [List.append_nil]
  exact brings_modify fun c hc => hc.slight h

theorem carries_emit {i : Instr} (h : (Line.instr i).isSlight = true) :
    (emit i).Carries F F [] := carries_plain h

theorem carries_place (l : Label) : (place l).Carries F F [] := carries_plain rfl

/-- A line that moves a number. -/
theorem carries_constant (r : Reg) (v : Int) :
    (emit (.mov r (.imm v))).Carries F F [v] := carries_line

theorem carries_writing {i : Instr} {y : Compile β} (h : (Line.instr i).isSlight = true)
    (hy : y.Carries F G M) : Carries F G M (emit i >>= fun _ => y) :=
  carries_next (carries_emit h) fun _ => hy

theorem carries_placing (l : Label) {y : Compile β} (hy : y.Carries F G M) :
    Carries F G M (place l >>= fun _ => y) :=
  carries_next (carries_place l) fun _ => hy

theorem carries_move (d s : Reg) : (move d s).Carries F F [] :=
  carries_ite (carries_emit rfl) (carries_pure ())

theorem carries_inLoop {labels : LoopLabels} (hx : x.Carries F G M) :
    (inLoop labels x).Carries F G M := by
  intro N c a c' hc hrun
  obtain ⟨c₁, hstep, rfl⟩ := inLoop_eq_ok hrun
  have hopen : (c.openLoop labels).Carrying F N := ⟨hc.frame, hc.moved, hc.data⟩
  have hclosed := hx N _ a c₁ hopen hstep
  exact ⟨hclosed.frame, hclosed.moved, hclosed.data⟩

/-! ### Operators -/

instance operatorRules (N : List Int) :
    OperatorRules (fun _ => True) (fun _ => True) fun _ _ => Compiler.Carrying F N where
  draw hc := ⟨trivial, hc.frame, hc.moved, hc.data⟩
  drawApart _ hc := ⟨trivial, hc.frame, hc.moved, hc.data⟩
  put hc _ _ hi := hc.slight (Instr.isSlight_of_isSimple hi)
  send _ hc _ _ := hc.slight rfl
  jump hc hi _ := by
    refine hc.slight ?_
    rcases Line.jump_cases hi with heq | ⟨c, heq | heq⟩ <;> cases heq <;> rfl
  mint hc _ := ⟨hc.frame, hc.moved, hc.data⟩
  place hc := hc.slight rfl
  forget hc _ := hc

theorem carries_of_books {x : Compile Unit}
    (h : ∀ N, Books (fun _ _ => Compiler.Carrying F N) [] [] [] x) : x.Carries F F [] := by
  intro N
  rw [List.append_nil]
  exact (h N).brings

theorem carries_binary (op : BinOp) (d l r : Reg) : (binary op d l r).Carries F F [] :=
  carries_of_books fun _ => books_binary trivial l r op

theorem carries_unary (op : UnaryOp) (d a : Reg) : (unary op d a).Carries F F [] :=
  carries_of_books fun _ => books_unary trivial op a

theorem carries_device (d : Reg) (f : String) (args : List Reg) :
    (device d f args).Carries F F [] :=
  carries_of_books fun _ => books_device trivial (fun _ _ => trivial) f args

/-! ### Names, calls and addresses -/

theorem carries_name (x : String) : (name x).Carries F F [] := by
  refine carries_get fun c _ => ?_
  split
  · exact carries_drawing fun d => carries_drawing fun a =>
      carries_writing rfl (carries_writing rfl (carries_pure d))
  · refine carries_next (carries_registerOf? x) fun r => ?_
    split
    · exact carries_pure _
    · exact carries_current (carries_throw _)

theorem carries_push (r : Reg) : (push r).Carries F F [] := carries_writing rfl (carries_emit rfl)

/-- A call without arguments takes none off the stack, so that no number is moved for it. -/
theorem carries_callPushed (t : Reg) (target : Label) (count : Nat) :
    (callPushed t target count).Carries F F [(count : Int)] := by
  have hvalue : Carries F F [] (do
      let d ← temp
      move d result
      return d) := carries_drawing fun d => carries_next (carries_move d result)
        fun _ => carries_pure d
  refine carries_minting _ fun back => carries_writing rfl
    (carries_next (carries_push t) fun _ => carries_writing rfl (carries_placing _ ?_))
  by_cases hcount : count > 0
  · rw [if_pos hcount]
    exact carries_drawing fun n => carries_last (carries_constant n count) fun _ =>
      carries_writing rfl hvalue
  · rw [if_neg hcount]
    refine carries_congr hvalue fun v hv => ?_
    have hne : v ≠ (count : Int) := by
      rintro rfl
      exact hv ⟨by omega, by omega⟩
    simp [hne]

theorem carries_indexLabel (a : String) (p : ArrayPlace) : (indexLabel a p).Carries F F [] := by
  cases p with
  | label l => exact carries_pure l
  | number n => exact carries_throw _

theorem carries_arrayLabel (a : String) (p : ArrayPlace) : (arrayLabel a p).Carries F F [] := by
  cases p with
  | label l => exact carries_pure l
  | number n => exact carries_current (carries_throw _)

theorem carries_elementAddress (d : Reg) (l : Label) (i : Reg) :
    (elementAddress d l i).Carries F F [] :=
  carries_writing rfl (carries_emit rfl)

theorem carries_loadElement (a : String) (i : Reg) : (loadElement a i).Carries F F [] := by
  refine carries_get fun c _ => ?_
  split
  · refine carries_drawing fun d => carries_drawing fun t =>
      carries_next (carries_indexLabel a _) fun l => ?_
    exact carries_next (carries_elementAddress t l i) fun _ => carries_writing rfl (carries_pure d)
  · exact carries_throw _

theorem carries_addressOfElement (d : Reg) (a : String) (i : Reg) :
    (addressOfElement d a i).Carries F F [] := by
  refine carries_get fun c _ => ?_
  split
  · refine carries_drawing fun t => carries_next (carries_indexLabel a _) fun l => ?_
    exact carries_next (carries_elementAddress t l i) fun _ => carries_emit rfl
  · exact carries_throw _

/-- The address of a name in slot zero is the top of the stack. -/
theorem carries_addressOfName (d : Reg) (x : String) :
    (addressOfName d x).Carries F F (F.slotOf x) := by
  refine carries_get fun c hc => ?_
  subst hc
  unfold Frame.slotOf Compiler.frame
  dsimp only
  cases c.varPlaces.get? x with
  | none =>
    dsimp only
    split
    · exact carries_next (carries_arrayLabel x _) fun l => carries_emit rfl
    · exact carries_throw _
  | some p =>
    cases p with
    | label l => exact carries_emit rfl
    | slot n =>
      refine carries_writing rfl ?_
      by_cases hn : n > 0
      · rw [if_pos hn]
        exact carries_drawing fun t => carries_last (carries_constant t n) fun _ => carries_emit rfl
      · rw [if_neg hn]
        refine carries_congr (carries_pure ()) fun v hv => ?_
        have hne : v ≠ (n : Int) := by
          rintro rfl
          exact hv ⟨by omega, by omega⟩
        simp [hne]

end Compile

/-! ### Expressions -/

namespace Expr

variable {F : Frame}

theorem carries_addressOf {e : Expr}
    (hindex : ∀ a i, e = .index a i → i.compile.Carries F F (i.constants F))
    (hderef : ∀ d, e = .deref d → d.compile.Carries F F (d.constants F)) :
    (addressOf e).compile.Carries F F ((addressOf e).constants F) := by
  cases e with
  | name x =>
    rw [compile, constants]
    exact carries_drawing fun d => carries_last (carries_addressOfName d x) fun _ => carries_pure d
  | index a i =>
    rw [compile, constants]
    refine carries_drawing fun d => carries_last (hindex a i rfl) fun r => ?_
    exact carries_next (carries_addressOfElement d a r) fun _ => carries_pure d
  | deref d =>
    rw [compile, constants]
    exact carries_drawing fun _ => hderef d rfl
  | _ =>
    rw [compile]
    · exact carries_drawing fun _ => carries_current (carries_throw _)
    all_goals simp

theorem carries_compileAll {es : List Expr} (h : ∀ e ∈ es, e.compile.Carries F F (e.constants F)) :
    (compileAll es).Carries F F (constantsAll F es) := by
  induction es with
  | nil =>
    rw [compileAll, constantsAll]
    exact carries_pure _
  | cons e es ih =>
    obtain ⟨he, hes⟩ := List.forall_mem_cons.mp h
    rw [compileAll, constantsAll]
    exact carries_bind he fun r => carries_last (ih hes) fun _ => carries_pure _

/-- Arguments are pushed from the last one on. -/
theorem carries_pushAll (t : Reg) {es : List Expr}
    (h : ∀ e ∈ es, e.compile.Carries F F (e.constants F)) :
    (pushAll t es).Carries F F (constantsAll F es) := by
  induction es with
  | nil =>
    rw [pushAll, constantsAll]
    exact carries_pure _
  | cons e es ih =>
    obtain ⟨he, hes⟩ := List.forall_mem_cons.mp h
    have hpushed : (pushAll t (e :: es)).Carries F F (constantsAll F es ++ constants F e) := by
      rw [pushAll]
      refine carries_bind (ih hes) fun _ => carries_last he fun r => ?_
      exact carries_next (carries_move t r) fun _ => carries_push t
    refine carries_congr hpushed fun v _ => ?_
    simp [constantsAll, or_comm]

theorem carries_call (f : String) {args : List Expr}
    (hargs : ∀ e ∈ args, e.compile.Carries F F (e.constants F)) :
    (call f args).compile.Carries F F ((call f args).constants F) := by
  rw [compile, constants]
  refine carries_get fun c hc => ?_
  have hfunctions : c.functions = F.functions := congrArg Frame.functions hc
  rw [hfunctions]
  unfold Frame.countOf Table.contains
  cases F.functions.get? f with
  | some target =>
    exact carries_drawing fun t => carries_bind (carries_pushAll t hargs) fun _ =>
      carries_callPushed t target args.length
  | none =>
    show Carries F F (constantsAll F args ++ []) _
    refine carries_drawing fun d => ?_
    split
    · exact carries_current (carries_throw _)
    · refine carries_ite (carries_failing _) ?_
      exact carries_bind (carries_compileAll hargs) fun regs =>
        carries_next (carries_device d f regs) fun _ => carries_pure d

/-- The code of an expression moves the numbers of the expression. -/
theorem carries_compile (e : Expr) : e.compile.Carries F F (e.constants F) := by
  induction e using Expr.address_induction with
  | literal n =>
    rw [compile, constants]
    exact carries_drawing fun d => carries_last (carries_constant d _) fun _ => carries_pure d
  | name x =>
    rw [compile, constants]
    exact carries_name x
  | call f args ih => exact carries_call f ih
  | index a i ih =>
    rw [compile, constants]
    exact carries_last ih fun r => carries_loadElement a r
  | addressOf e hindex hderef => exact carries_addressOf hindex hderef
  | deref e ih =>
    rw [compile, constants]
    exact carries_last ih fun a => carries_drawing fun d => carries_writing rfl (carries_pure d)
  | unary op e ih =>
    rw [compile, constants]
    exact carries_last ih fun a => carries_drawing fun d =>
      carries_next (carries_unary op d a) fun _ => carries_pure d
  | binary op l r ihl ihr =>
    rw [compile, constants]
    refine carries_bind ihl fun l => carries_last ihr fun r => carries_drawing fun d => ?_
    exact carries_next (carries_binary op d l r) fun _ => carries_pure d
  | foreignUnary op e ih =>
    rw [compile, constants]
    exact carries_last ih fun _ => carries_drawing fun _ => carries_current (carries_throw _)
  | foreignBinary op l r ihl ihr =>
    rw [compile, constants]
    exact carries_bind ihl fun _ => carries_last ihr fun _ => carries_drawing fun _ =>
      carries_current (carries_throw _)
  | hole =>
    rw [compile]
    exact carries_current (carries_throw _)

end Expr

end WordC
