import WordC.Proofs.ScopeShape

/-!
# Globals and local declarations

A program declares its globals one after another before it starts, each as a variable. A statement
declares variables, arrays and pointers each in their own way. The two are the same step for a
variable, and for a pointer that asks for no register. They differ for every array, and for every
pointer that asks for a register and whose first value can be worked out: the array becomes a
variable or is refused, the pointer is refused.

So the globals of a run hold no array, and as no function can add one to a scope that is not its
own, an index into a global array finds nothing wherever it stands.
-/

namespace WordC

open Run Step

/-! ### The arrays of a chain -/

namespace Chain

variable {c c' : Chain IntType} {a : String} {n : Nat} {i : Int}

/-- The length of the first array of a name. -/
def lengthOf? (c : Chain IntType) (a : String) : Option Nat :=
  c.findSome? fun s => (s.arrays.get? a).map Array.size

theorem lengthOf?_eq_shapes (c : Chain IntType) (a : String) :
    c.lengthOf? a = c.shapes.findSome? fun s => s.length? a := by
  rw [shapes, List.findSome?_map]
  rfl

variable {s : Scope IntType} {elements : Array Int}

theorem lengthOf?_cons_of_some (h : s.arrays.get? a = some elements) :
    lengthOf? (s :: c) a = some elements.size := by
  rw [lengthOf?, List.findSome?_cons, h, Option.map_some]

theorem lengthOf?_cons_of_none (h : s.arrays.get? a = none) :
    lengthOf? (s :: c) a = c.lengthOf? a := by
  rw [lengthOf?, List.findSome?_cons, h, Option.map_none, lengthOf?]

/-- Neither reading nor writing finds an array that no scope has. -/
theorem element_of_lengthOf?_none (h : c.lengthOf? a = none) (i v : Int) : c.element a i =
    .error (.undefinedArray a) ∧ c.setElement a i v = .error (.undefinedArray a) := by
  induction c with
  | nil => exact ⟨rfl, rfl⟩
  | cons s rest ih =>
    cases ha : s.arrays.get? a with
    | some elements =>
      rw [lengthOf?_cons_of_some ha] at h
      cases h
    | none =>
      rw [lengthOf?_cons_of_none ha] at h
      obtain ⟨hread, hwrite⟩ := ih h
      rw [element, ha, setElement, ha, hwrite]
      exact ⟨hread, rfl⟩

theorem checkIndex_ok (h₀ : 0 ≤ i) (hn : i < elements.size) :
    checkIndex a elements i = .ok i.toNat :=
  if_neg (by omega)

theorem element_cons_of_some (ha : s.arrays.get? a = some elements)
    (h₀ : 0 ≤ i) (hn : i < elements.size) :
    element (s :: c) a i = .ok (Word.wrap (elements.getD i.toNat 0)) := by
  rw [element, ha]
  dsimp only
  rw [checkIndex_ok h₀ hn]
  rfl

theorem setElement_cons_of_some (ha : s.arrays.get? a = some elements) (h₀ : 0 ≤ i)
    (hn : i < elements.size) (v : Int) :
    setElement (s :: c) a i v =
      .ok ({ s with
        arrays := s.arrays.set a (elements.setIfInBounds i.toNat (Word.wrap v)) } :: c) := by
  rw [setElement, ha]
  dsimp only
  rw [checkIndex_ok h₀ hn]
  rfl

/-- Every place of an array can be read and written, and what was written is there afterwards. -/
theorem element_of_lengthOf? (h : c.lengthOf? a = some n) (h₀ : 0 ≤ i) (hn : i < n) :
    (∃ v, c.element a i = .ok v) ∧ ∀ v, ∃ c', c.setElement a i v = .ok c' ∧
    c'.element a i = .ok (Word.wrap v) := by
  induction c with
  | nil => cases h
  | cons s rest ih =>
    cases ha : s.arrays.get? a with
    | some elements =>
      rw [lengthOf?_cons_of_some ha] at h
      have hsize : i < elements.size := by rw [Option.some.inj h]; exact hn
      refine ⟨⟨_, element_cons_of_some ha h₀ hsize⟩,
        fun v => ⟨_, setElement_cons_of_some ha h₀ hsize v, ?_⟩⟩
      have hplace : i.toNat < elements.size := by omega
      have hsize' : i < (elements.setIfInBounds i.toNat (Word.wrap v)).size := by
        rwa [Array.size_setIfInBounds]
      rw [element_cons_of_some (Table.get?_set_self s.arrays a _) h₀ hsize']
      simp [hplace, Word.wrap_wrap]
    | none =>
      rw [lengthOf?_cons_of_none ha] at h
      obtain ⟨hread, hwrite⟩ := ih h
      refine ⟨by rw [element, ha]; exact hread, fun v => ?_⟩
      obtain ⟨rest', hset, hget⟩ := hwrite v
      exact ⟨s :: rest', by rw [setElement, ha, hset]; rfl, by rw [element, ha]; exact hget⟩

end Chain

/-! ### Steps that make no array -/

/-- A step from a sound machine keeps it sound and keeps the scopes and their arrays. -/
def KeepsLengths (m m' : Machine) : Prop :=
  m.Sound → m'.Sound ∧ m'.scopes.length = m.scopes.length ∧
    ∀ a, m'.scopes.lengthOf? a = m.scopes.lengthOf? a

theorem KeepsLengths.refl (m : Machine) : KeepsLengths m m := fun hm => ⟨hm, rfl, fun _ => rfl⟩

theorem KeepsLengths.trans (m₁ m₂ m₃ : Machine) (h₁ : KeepsLengths m₁ m₂)
    (h₂ : KeepsLengths m₂ m₃) : KeepsLengths m₁ m₃ := by
  intro hm
  obtain ⟨hm₂, hlength₁, harrays₁⟩ := h₁ hm
  obtain ⟨hm₃, hlength₂, harrays₂⟩ := h₂ hm₂
  exact ⟨hm₃, hlength₂.trans hlength₁, fun a => (harrays₂ a).trans (harrays₁ a)⟩

theorem KeepsShapes.lengths {m m' : Machine} (h : KeepsShapes m m') : KeepsLengths m m' := by
  intro hm
  obtain ⟨hm', hlength, -⟩ := h.outer hm
  refine ⟨hm', hlength, fun a => ?_⟩
  rw [Chain.lengthOf?_eq_shapes, Chain.lengthOf?_eq_shapes, (h hm).2]

theorem keepsLengths_declare (m : Machine) (x : String) (v : Int) (t : IntType) :
    KeepsLengths m (Run.declare x v t m).2 := by
  intro hm
  refine ⟨hm.declare x v t, ?_⟩
  cases hscopes : m.scopes with
  | nil =>
    rw [declare_nil hscopes, hscopes]
    exact ⟨rfl, fun _ => rfl⟩
  | cons s rest =>
    rw [declare_cons hscopes]
    exact ⟨rfl, fun _ => rfl⟩

variable {calls : Calls} (hcalls : shapesKept.Careful calls)

theorem keepsLengths_bind {α β : Type} {x : Run α} {f : α → Run β} (hx : x.Within KeepsLengths)
    (hf : ∀ a, (f a).Within KeepsLengths) : (x >>= f).Within KeepsLengths :=
  RunRelation.bind_within KeepsLengths KeepsLengths.trans hx hf

theorem keepsLengths_pure {α : Type} (a : α) : (pure a : Run α).Within KeepsLengths :=
  fun m => KeepsLengths.refl m

section Lengths

include hcalls

theorem keepsLengths_eval (e : Expr) : (e.eval calls).Within KeepsLengths :=
  fun m => (shapesKept.eval_expr hcalls e m).lengths

theorem keepsLengths_varDecl (d : VarDecl) : (varDecl calls d).Within KeepsLengths := by
  unfold varDecl
  dsimp only
  split
  case' h_1 => refine keepsLengths_bind (keepsLengths_eval hcalls _) fun _ => ?_
  all_goals
    refine keepsLengths_bind (keepsLengths_pure _) fun v => ?_
    split
    · refine keepsLengths_bind (fun m hm => ⟨hm.setRegister _ v _, rfl, fun _ => rfl⟩) fun _ => ?_
      exact fun m => keepsLengths_declare m _ _ _
    · exact fun m => keepsLengths_declare m _ _ _

theorem keepsLengths_pointerDecl (d : PointerDecl) :
    (pointerDecl calls d).Within KeepsLengths := by
  unfold pointerDecl
  dsimp only
  split
  case' h_1 => refine keepsLengths_bind (keepsLengths_eval hcalls _) fun _ => ?_
  all_goals
    exact keepsLengths_bind (keepsLengths_pure _) fun _ m => keepsLengths_declare m _ _ _

theorem keepsLengths_global (d : Decl) : (Run.global calls d).Within KeepsLengths := by
  have hchecked {c : Prop} [Decidable c] (e : RunError) {x : Run Unit}
      (hx : x.Within KeepsLengths) :=
    RunRelation.checked_within (c := c) KeepsLengths.refl e hx
  cases d with
  | var d => exact keepsLengths_varDecl hcalls d
  | array d => exact hchecked _ (hchecked _ fun m => keepsLengths_declare m _ _ _)
  | pointer d =>
    unfold Run.global
    dsimp only
    split
    case' h_1 => refine keepsLengths_bind (keepsLengths_eval hcalls _) fun _ => ?_
    all_goals
      exact keepsLengths_bind (keepsLengths_pure _) fun _ => hchecked _ fun m =>
        keepsLengths_declare m _ _ _

theorem keepsLengths_declareGlobals (ds : List Decl) :
    (Program.declareGlobals calls ds).Within KeepsLengths := by
  induction ds with
  | nil => exact keepsLengths_pure _
  | cons d ds ih => exact keepsLengths_bind (keepsLengths_global hcalls d) fun _ => ih

theorem keepsLengths_fill (a : String) (es : List Expr) :
    ∀ i, (fill calls a i es).Within KeepsLengths := by
  induction es with
  | nil => exact fun _ => keepsLengths_pure _
  | cons e es ih =>
    intro i
    refine keepsLengths_bind (keepsLengths_eval hcalls e) fun v =>
      keepsLengths_bind (fun m => ?_) fun _ => ih (i + 1)
    intro hm
    rw [changing_apply]
    cases hset : m.scopes.setElement a i v.value with
    | error e => exact KeepsLengths.refl m hm
    | ok c =>
      have hkeeps : KeepsShapes m { m with scopes := c } := fun h =>
        ⟨soundKept.setElement hset h, (Chain.edited_setElement hset).shapes_eq⟩
      exact hkeeps.lengths hm

end Lengths

/-! ### Array declarations -/

section Arrays

variable {m : Machine} {d : ArrayDecl} {n : Nat}

theorem declareArray_lengthOf? (hm : m.Sound) (hscopes : m.scopes ≠ []) (a : String) (hn : 0 < n) :
    ∃ m', declareArray a n m = (.ok (), m') ∧ m'.Sound ∧ m'.scopes.length = m.scopes.length ∧
      ∀ b, m'.scopes.lengthOf? b = if a = b then some n else m.scopes.lengthOf? b := by
  obtain ⟨s, rest, hcons⟩ := List.exists_cons_of_ne_nil hscopes
  have hpositive : ¬ (n : Int) ≤ 0 := by omega
  refine ⟨(declareArray a n m).2, ?_, hm.declareArray a n, ?_⟩
  · rw [declareArray_cons hcons, changing_apply, Scope.declareArray, if_neg hpositive]
    rfl
  · rw [declareArray_cons hcons, changing_apply, Scope.declareArray, if_neg hpositive, hcons]
    refine ⟨rfl, fun b => ?_⟩
    show Chain.lengthOf? (_ :: rest) b = _
    rw [Chain.lengthOf?, Chain.lengthOf?, List.findSome?_cons, List.findSome?_cons, Table.get?_set]
    by_cases hb : a = b
    · rw [if_pos hb, if_pos hb, Option.map_some, Array.size_replicate]
      rfl
    · rw [if_neg hb, if_neg hb]

theorem arrayDecl_literal (hsize : d.size = .literal n) :
    arrayDecl calls d = declareArray d.name n >>= fun _ =>
      if n < (d.init.getD []).length then
        fail (.tooManyValues d.name (d.init.getD []).length n) >>= fun _ : Unit =>
        fill calls d.name 0 (d.init.getD [])
      else fill calls d.name 0 (d.init.getD []) := by
  rw [arrayDecl, hsize]

/-- An array of a positive size is there after its declaration, even if its values cannot be worked
out. -/
theorem arrayDecl_lengthOf? (hcalls : shapesKept.Careful calls) (hm : m.Sound)
    (hscopes : m.scopes ≠ []) (hsize : d.size = .literal n) (hn : 0 < n) :
    (arrayDecl calls d m).2.Sound ∧ (arrayDecl calls d m).2.scopes.length = m.scopes.length ∧
      ∀ a, (arrayDecl calls d m).2.scopes.lengthOf? a = if d.name = a then some n
      else m.scopes.lengthOf? a := by
  obtain ⟨m₁, hdeclare, hm₁, hlength, harrays⟩ := declareArray_lengthOf? hm hscopes d.name hn
  rw [arrayDecl_literal hsize, bind_ok hdeclare]
  obtain ⟨hm', hlength', harrays'⟩ :=
    RunRelation.checked_within (c := n < (d.init.getD []).length) KeepsLengths.refl (.tooManyValues
    d.name (d.init.getD []).length n) (keepsLengths_fill hcalls d.name (d.init.getD []) 0) m₁ hm₁
  exact ⟨hm', hlength'.trans hlength, fun a => (harrays' a).trans (harrays a)⟩

theorem arrayDecl_zero (hscopes : m.scopes ≠ []) (hsize : d.size = .literal 0) :
    arrayDecl calls d m = (.error (.failure (.scope (.arraySize 0))), m) := by
  obtain ⟨s, rest, hcons⟩ := List.exists_cons_of_ne_nil hscopes
  have hdeclare : declareArray d.name 0 m = (.error (.failure (.scope (.arraySize 0))), m) := by
    rw [declareArray_cons hcons, changing_apply]
    rfl
  rw [arrayDecl_literal hsize, bind_error hdeclare]

theorem arrayDecl_form (hsize : ∀ n, d.size ≠ .literal n) :
    arrayDecl calls d m = (.error (.failure (.arraySizeForm d.size.form)), m) := by
  rw [arrayDecl]
  cases h : d.size with
  | literal n => exact absurd h (hsize n)
  | _ => rfl

end Arrays

/-! ### One declaration -/

/-- A variable, or a pointer that asks for no register. -/
def Decl.isWord : Decl → Bool
  | var _ => true
  | array _ => false
  | pointer d => !d.register

section Steps

variable {m : Machine} {d : Decl} {q : ArrayDecl}

theorem global_eq_decl (hd : d.isWord = true) : Run.global calls d = Run.decl calls d := by
  cases d with
  | var d => rfl
  | array d => cases hd
  | pointer d =>
    have hregister : d.register = false := by simpa [Decl.isWord] using hd
    simp only [Run.global, Run.decl, pointerDecl, hregister, Bool.false_eq_true, if_false]

/-- A global array is refused or becomes a variable. -/
theorem global_array_cases (calls : Calls) (q : ArrayDecl) (m : Machine) :
    Run.global calls (.array q) m = (.error (.failure .valueList), m) ∨
      Run.global calls (.array q) m = (.error (.failure (.noRegister "ArrayDecl")), m) ∨
      (Run.global calls (.array q) m).1 = .ok () := by
  cases hinit : q.init.getD [] with
  | cons e es =>
    refine .inl ?_
    rw [Run.global, hinit]
    rfl
  | nil =>
    cases hregister : q.register with
    | true =>
      refine .inr (.inl ?_)
      rw [Run.global, hinit, hregister]
      rfl
    | false =>
      refine .inr (.inr ?_)
      rw [Run.global, hinit, hregister]
      rfl

/-- No array is declared alike: what the statement makes is an array, or an error that a global
array never gives. -/
theorem global_array_ne (hcalls : shapesKept.Careful calls) (hm : m.Sound) (hscopes : m.scopes ≠ [])
    (hnone : m.scopes.lengthOf? q.name = none) :
    Run.global calls (.array q) m ≠ Run.decl calls (.array q) m := by
  intro heq
  have hrefused {e : RunError} (he : Run.decl calls (.array q) m = (.error (.failure e), m))
      (hvalues : e ≠ .valueList)
      (hregister : e ≠ .noRegister "ArrayDecl") : False := by
    have hfirst := congrArg Prod.fst (heq.trans he)
    rcases global_array_cases calls q m
      with h | h | h <;> rw [h] at hfirst <;> cases hfirst <;> contradiction
  by_cases hsize : ∃ n, q.size = .literal n
  · obtain ⟨n, hn⟩ := hsize
    rcases Nat.eq_zero_or_pos n with rfl | hpositive
    · exact hrefused (arrayDecl_zero hscopes hn) (fun h => by cases h) (fun h => by cases h)
    · have hglobal := ((keepsLengths_global hcalls (.array q) m hm).2.2 q.name).trans hnone
      have hdecl := (arrayDecl_lengthOf? hcalls hm hscopes hn hpositive).2.2 q.name
      rw [heq] at hglobal
      rw [if_pos rfl] at hdecl
      cases hglobal.symm.trans hdecl
  · exact hrefused (arrayDecl_form fun n hn => hsize ⟨n, hn⟩) (fun h => by cases h)
      (fun h => by cases h)

/-- The first value of a pointer cannot be worked out. -/
def PointerDecl.Stuck (calls : Calls) (m : Machine) (d : PointerDecl) : Prop :=
  ∃ e signal m', d.init = some e ∧ e.eval calls m = (.error signal, m')

/-- A pointer that asks for a register fails in its first value as it does in a statement, and is
refused otherwise. -/
theorem global_pointer_register (calls : Calls) {d : PointerDecl}
    (hregister : d.register = true) (m : Machine) :
    (d.Stuck calls m ∧ Run.global calls (.pointer d) m = Run.decl calls (.pointer d) m ∧
        ∃ signal, (Run.decl calls (.pointer d) m).1 = .error signal) ∨
      ¬ d.Stuck calls m ∧ (Run.global calls (.pointer d) m).1 =
      .error (.failure (.noRegister "PointerDecl")) ∧
        (Run.decl calls (.pointer d) m).1 = .ok () := by
  cases hinit : d.init with
  | none =>
    refine .inr ⟨fun ⟨e, _, _, he, _⟩ => ?_, ?_, ?_⟩
    · rw [hinit] at he
      cases he
    · simp only [Run.global, hinit, hregister, if_true]
      rfl
    · simp only [Run.decl, pointerDecl, hinit]
      rfl
  | some e =>
    rcases heval : e.eval calls m with ⟨signal | v, m'⟩
    · refine .inl ⟨⟨e, signal, m', hinit, heval⟩, ?_, signal, ?_⟩
      · simp only [Run.global, Run.decl, pointerDecl, hinit]
        rw [bind_error heval, bind_error heval]
      · simp only [Run.decl, pointerDecl, hinit]
        rw [bind_error heval]
    · refine .inr ⟨fun ⟨e', _, _, he, hstuck⟩ => ?_, ?_, ?_⟩
      · obtain rfl := Option.some.inj (hinit.symm.trans he)
        cases heval.symm.trans hstuck
      · simp only [Run.global, hinit, hregister, if_true]
        rw [bind_ok heval]
        rfl
      · simp only [Run.decl, pointerDecl, hinit]
        rw [bind_ok heval]
        rfl

end Steps

/-! ### All declarations in order -/

/-- A machine with an open scope and without arrays. -/
structure Machine.Bare (m : Machine) : Prop where
  sound : m.Sound
  opened : m.scopes ≠ []
  bare : ∀ a, m.scopes.lengthOf? a = none

theorem Machine.bare_initial : ({} : Machine).Bare where
  sound := Machine.sound_initial
  opened := List.cons_ne_nil _ _
  bare := fun _ => rfl

theorem Machine.Bare.keeps {m m' : Machine} (hm : m.Bare) (h : KeepsLengths m m') : m'.Bare := by
  obtain ⟨hsound, hlength, harrays⟩ := h hm.sound
  refine ⟨hsound, ?_, fun a => (harrays a).trans (hm.bare a)⟩
  rw [← List.length_pos_iff, hlength]
  exact List.length_pos_iff.mpr hm.opened

/-- In a machine without arrays the two ways differ for every array and for every pointer that asks
for a register, unless the pointer fails in its first value. -/
theorem global_eq_decl_iff {m : Machine} (hcalls : shapesKept.Careful calls) (hm : m.Bare)
    (d : Decl) : Run.global calls d m = Run.decl calls d m ↔
    d.isWord = true ∨ ∃ q, d = .pointer q ∧ q.Stuck calls m := by
  constructor
  · intro heq
    cases d with
    | var d => exact .inl rfl
    | array q => exact absurd heq (global_array_ne hcalls hm.sound hm.opened (hm.bare q.name))
    | pointer q =>
      cases hregister : q.register with
      | false => exact .inl (by rw [Decl.isWord, hregister]; rfl)
      | true =>
        rcases global_pointer_register calls hregister m with ⟨hstuck, -⟩ | ⟨-, hglobal, hdecl⟩
        · exact .inr ⟨q, rfl, hstuck⟩
        · rw [heq, hdecl] at hglobal
          cases hglobal
  · rintro (hword | ⟨q, rfl, hstuck⟩)
    · rw [global_eq_decl hword]
    · cases hregister : q.register with
      | false => rw [global_eq_decl (by rw [Decl.isWord, hregister]; rfl)]
      | true =>
        rcases global_pointer_register calls hregister m with ⟨-, heq, -⟩ | ⟨hfree, -⟩
        · exact heq
        · exact absurd hstuck hfree

section Sequences

variable {ds es : List Decl} {rounds : Nat} {m m' : Machine}

theorem declareGlobals_eq_execAll (hds : ∀ d ∈ ds, d.isWord = true) :
    Program.declareGlobals calls ds = Stmt.execAll calls rounds (ds.map .decl) := by
  induction ds with
  | nil => rw [Program.declareGlobals, List.map_nil, Stmt.execAll]
  | cons d ds ih =>
    obtain ⟨hd, hrest⟩ := List.forall_mem_cons.mp hds
    rw [Program.declareGlobals, List.map_cons, Stmt.execAll, Stmt.exec, global_eq_decl hd, ih hrest]

theorem declareGlobals_append (ds es : List Decl) :
    Program.declareGlobals calls (ds ++ es) =
      Program.declareGlobals calls ds >>= fun _ => Program.declareGlobals calls es := by
  induction ds with
  | nil => rw [List.nil_append, Program.declareGlobals, pure_bind]
  | cons d ds ih =>
    rw [List.cons_append, Program.declareGlobals, Program.declareGlobals, ih, bind_assoc]

theorem execAll_append (ss ts : List Stmt) : Stmt.execAll calls rounds (ss ++ ts) =
    Stmt.execAll calls rounds ss >>= fun _ => Stmt.execAll calls rounds ts := by
  induction ss with
  | nil => rw [List.nil_append, Stmt.execAll, pure_bind]
  | cons s ss ih => rw [List.cons_append, Stmt.execAll, Stmt.execAll, ih, bind_assoc]

include hcalls

/-- A declaration leaves the arrays of other names as they are. -/
theorem decl_lengthOf? (hm : m.Sound) (hscopes : m.scopes ≠ []) (d : Decl) :
    (Run.decl calls d m).2.Sound ∧ (Run.decl calls d m).2.scopes ≠ [] ∧
      ∀ a, (Run.decl calls d m).2.scopes.lengthOf? a = m.scopes.lengthOf? a ∨
        ∃ q n, d = .array q ∧ q.name = a ∧ (Run.decl calls d m).2.scopes.lengthOf? a = some n := by
  have hkeeps {m' : Machine} (h : KeepsLengths m m') : m'.Sound ∧ m'.scopes ≠ [] ∧
      ∀ a, m'.scopes.lengthOf? a = m.scopes.lengthOf? a ∨
      ∃ q n, d = .array q ∧ q.name = a ∧ m'.scopes.lengthOf? a = some n := by
    obtain ⟨hsound, hlength, harrays⟩ := h hm
    refine ⟨hsound, ?_, fun a => .inl (harrays a)⟩
    rw [← List.length_pos_iff, hlength]
    exact List.length_pos_iff.mpr hscopes
  cases d with
  | var d => exact hkeeps (keepsLengths_varDecl hcalls d m)
  | pointer d => exact hkeeps (keepsLengths_pointerDecl hcalls d m)
  | array q =>
    by_cases hsize : ∃ n, q.size = .literal n
    · obtain ⟨n, hn⟩ := hsize
      rcases Nat.eq_zero_or_pos n with rfl | hpositive
      · rw [Run.decl, arrayDecl_zero hscopes hn]
        exact hkeeps (KeepsLengths.refl m)
      · obtain ⟨hsound, hlength, harrays⟩ := arrayDecl_lengthOf? hcalls hm hscopes hn hpositive
        refine ⟨hsound, ?_, fun a => ?_⟩
        · rw [Run.decl, ← List.length_pos_iff, hlength]
          exact List.length_pos_iff.mpr hscopes
        · by_cases ha : q.name = a
          · exact .inr ⟨q, n, rfl, ha, by rw [Run.decl, harrays a, if_pos ha]⟩
          · exact .inl (by rw [Run.decl, harrays a, if_neg ha])
    · rw [Run.decl, arrayDecl_form fun n hn => hsize ⟨n, hn⟩]
      exact hkeeps (KeepsLengths.refl m)

/-- After a sequence of declarations an array is as it was, or has been declared by one of them. -/
theorem execAll_lengthOf? (hm : m.Sound) (hscopes : m.scopes ≠ [])
    (h : Stmt.execAll calls rounds (ds.map .decl) m = (.ok (), m')) (a : String) :
    m'.scopes.lengthOf? a = m.scopes.lengthOf? a ∨
      ∃ q n, Decl.array q ∈ ds ∧ q.name = a ∧ m'.scopes.lengthOf? a = some n := by
  induction ds generalizing m with
  | nil =>
    rw [List.map_nil, Stmt.execAll, pure_apply] at h
    obtain rfl := congrArg Prod.snd h
    exact .inl rfl
  | cons d ds ih =>
    rw [List.map_cons, Stmt.execAll, Stmt.exec] at h
    obtain ⟨⟨⟩, m₁, hd, hrest⟩ := bind_eq_ok h
    obtain ⟨hm₁, hscopes₁, hfirst⟩ := decl_lengthOf? hcalls hm hscopes d
    rw [hd] at hm₁ hscopes₁ hfirst
    rcases ih hm₁ hscopes₁ hrest with hsame | ⟨q, n, hq, ha, hn⟩
    · rcases hfirst a with hkept | ⟨q, n, rfl, ha, hn⟩
      · exact .inl (hsame.trans hkept)
      · exact .inr ⟨q, n, List.mem_cons_self, ha, hsame.trans hn⟩
    · exact .inr ⟨q, n, List.mem_cons_of_mem d hq, ha, hn⟩

theorem arrayDecl_ok_lengthOf? (hm : m.Sound) (hscopes : m.scopes ≠ []) {q : ArrayDecl}
    (h : Run.decl calls (.array q) m = (.ok (), m')) :
    ∃ n, q.size = .literal n ∧ m'.scopes.lengthOf? q.name = some n := by
  by_cases hsize : ∃ n, q.size = .literal n
  · obtain ⟨n, hn⟩ := hsize
    rcases Nat.eq_zero_or_pos n with rfl | hpositive
    · rw [Run.decl, arrayDecl_zero hscopes hn] at h
      cases h
    · have harrays := (arrayDecl_lengthOf? hcalls hm hscopes hn hpositive).2.2 q.name
      rw [Run.decl] at h
      rw [h, if_pos rfl] at harrays
      exact ⟨n, hn, harrays⟩
  · rw [Run.decl, arrayDecl_form fun n hn => hsize ⟨n, hn⟩] at h
    cases h

theorem execAll_sound (hm : m.Sound)
    (h : Stmt.execAll calls rounds (ds.map .decl) m = (.ok (), m')) :
    m'.Sound ∧ m'.scopes.length = m.scopes.length := by
  have hkeeps : (Stmt.execAll calls rounds (ds.map .decl)).Within KeepsOuterShapes :=
    shapesKept.execAll_stmt fun s _ => shapesKept.exec_stmt hcalls rounds s
  obtain ⟨hm', hlength, -⟩ := hkeeps m hm
  rw [h] at hm' hlength
  exact ⟨hm', hlength⟩

/-- The last declaration of an array says how long it is. -/
theorem execAll_array_lengthOf? (hm : m.Sound) (hscopes : m.scopes ≠ []) {q : ArrayDecl}
    {n : Nat} (hsize : q.size = .literal n) (hlast : ∀ q', Decl.array q' ∈ es → q'.name ≠ q.name)
    (h : Stmt.execAll calls rounds ((ds ++ .array q :: es).map .decl) m = (.ok (), m')) :
    m'.scopes.lengthOf? q.name = some n := by
  rw [List.map_append, execAll_append, List.map_cons, Stmt.execAll, Stmt.exec] at h
  obtain ⟨⟨⟩, m₁, hds, h⟩ := bind_eq_ok h
  obtain ⟨⟨⟩, m₂, hq, hes⟩ := bind_eq_ok h
  obtain ⟨hm₁, hlength₁⟩ := execAll_sound hcalls hm hds
  have hscopes₁ : m₁.scopes ≠ [] := by
    rw [← List.length_pos_iff, hlength₁]
    exact List.length_pos_iff.mpr hscopes
  obtain ⟨n', hn', harrays⟩ := arrayDecl_ok_lengthOf? hcalls hm₁ hscopes₁ hq
  obtain rfl := Expr.literal.inj (hsize.symm.trans hn')
  obtain ⟨hm₂, hscopes₂, -⟩ := decl_lengthOf? hcalls hm₁ hscopes₁ (.array q)
  rw [hq] at hm₂ hscopes₂
  rcases execAll_lengthOf? hcalls hm₂ hscopes₂ hes q.name with hsame | ⟨q', _, hq', hname, -⟩
  · exact hsame.trans harrays
  · exact absurd hname (hlast q' hq')

/-- Declarations that both ways carry out to the same end are variables and pointers without
registers. -/
theorem isWord_of_both (hm : m.Bare) (hglobals : Program.declareGlobals calls ds m = (.ok (), m'))
    (hstmts : Stmt.execAll calls rounds (ds.map .decl) m = (.ok (), m')) :
    ∀ d ∈ ds, d.isWord = true := by
  induction ds generalizing m with
  | nil => exact fun d hd => absurd hd List.not_mem_nil
  | cons d ds ih =>
    have hbare := hm.keeps (keepsLengths_declareGlobals hcalls (d :: ds) m)
    rw [hglobals] at hbare
    rw [Program.declareGlobals] at hglobals
    rw [List.map_cons, Stmt.execAll, Stmt.exec] at hstmts
    obtain ⟨⟨⟩, m₁, hglobal, hglobals'⟩ := bind_eq_ok hglobals
    obtain ⟨⟨⟩, m₂, hdecl, hstmts'⟩ := bind_eq_ok hstmts
    have hfirst : d.isWord = true := by
      cases d with
      | var d => rfl
      | array q =>
        -- the array stays to the end on one side, and no array ever comes on the other
        obtain ⟨n, -, hn⟩ := arrayDecl_ok_lengthOf? hcalls hm.sound hm.opened hdecl
        obtain ⟨hm₂, hscopes₂, -⟩ := decl_lengthOf? hcalls hm.sound hm.opened (.array q)
        rw [hdecl] at hm₂ hscopes₂
        have hend := hbare.bare q.name
        rcases execAll_lengthOf? hcalls hm₂ hscopes₂ hstmts' q.name with h | ⟨_, _, -, -, h⟩
        · rw [h, hn] at hend
          cases hend
        · rw [h] at hend
          cases hend
      | pointer q =>
        cases hregister : q.register with
        | false => rw [Decl.isWord, hregister]; rfl
        | true =>
          rcases global_pointer_register calls hregister m with ⟨-, -, _, h⟩ | ⟨-, h, -⟩
          · rw [hdecl] at h
            cases h
          · rw [hglobal] at h
            cases h
    rw [← global_eq_decl hfirst, hglobal] at hdecl
    obtain rfl := congrArg Prod.snd hdecl
    have hm₁ := hm.keeps (keepsLengths_global hcalls d m)
    rw [hglobal] at hm₁
    exact List.forall_mem_cons.mpr ⟨hfirst, ih hm₁ hglobals' hstmts'⟩

end Sequences

/-! ### Functions and the arrays around them -/

/-- The states in which a function runs that was called in the scopes of `g`: its scope has been
opened, expressions and statements are carried out, and scopes inside of its own are opened and
closed. -/
inductive Machine.InCall (p : Program) (g : Machine) : Machine → Prop
  | called {s : Scope IntType} : s.Opened → InCall p g { g with scopes := s :: g.scopes }
  | eval {m : Machine} (fuel : Nat) (e : Expr) :
      InCall p g m → InCall p g (e.eval (p.calls fuel) m).2
  | exec {m : Machine} (fuel rounds : Nat) (s : Stmt) :
      InCall p g m → InCall p g (s.exec (p.calls fuel) rounds m).2
  | opened {m : Machine} {s : Scope IntType} :
      s.Opened → InCall p g m → InCall p g { m with scopes := s :: m.scopes }
  | closed {m : Machine} : g.scopes.length + 1 < m.scopes.length → InCall p g m →
      InCall p g { m with scopes := m.scopes.tail }

namespace Machine.InCall

variable {p : Program} {g m : Machine} {a : String}

/-- The scopes of the caller are still there, with what was declared in them. -/
theorem shapes (hg : g.Sound) (h : InCall p g m) :
    m.Sound ∧ ∃ s locals, m.scopes.shapes = s :: (locals ++ g.scopes.shapes) := by
  induction h with
  | @called s hs =>
    exact ⟨hg.withScopes (List.forall_mem_cons.mpr ⟨hs.sound, hg.scopes⟩), s.shape, [], rfl⟩
  | eval fuel e _ ih =>
    obtain ⟨hm, s, locals, hshapes⟩ := ih
    obtain ⟨hm', hkept⟩ := shapesKept.eval_expr (shapesKept.calls_careful p fuel) e _ hm
    exact ⟨hm', s, locals, hkept.trans hshapes⟩
  | @exec m fuel rounds st _ ih =>
    obtain ⟨hm, s, locals, hshapes⟩ := ih
    obtain ⟨hm', hlength, hkept⟩ :=
      shapesKept.exec_stmt (shapesKept.calls_careful p fuel) rounds st _ hm
    rw [hshapes, List.tail_cons] at hkept
    refine ⟨hm', ?_⟩
    cases hscopes : (st.exec (p.calls fuel) rounds m).2.scopes with
    | nil =>
      rw [hscopes] at hlength
      have hempty : m.scopes = [] := List.length_eq_zero_iff.mp hlength.symm
      rw [hempty] at hshapes
      cases hshapes
    | cons t rest =>
      rw [hscopes] at hkept
      exact ⟨t.shape, locals, congrArg (t.shape :: ·) hkept⟩
  | @opened m s hs _ ih =>
    obtain ⟨hm, t, locals, hshapes⟩ := ih
    refine ⟨hm.withScopes (List.forall_mem_cons.mpr ⟨hs.sound, hm.scopes⟩), s.shape,
      t :: locals, ?_⟩
    exact congrArg (s.shape :: ·) hshapes
  | @closed m hlength _ ih =>
    obtain ⟨hm, s, locals, hshapes⟩ := ih
    refine ⟨hm.withScopes fun t ht => hm.scopes t (List.mem_of_mem_tail ht), ?_⟩
    have htail : Chain.shapes m.scopes.tail = locals ++ g.scopes.shapes := by
      rw [Chain.shapes_tail, hshapes, List.tail_cons]
    cases locals with
    | nil =>
      have hcount := congrArg List.length hshapes
      simp only [Chain.shapes, List.nil_append, List.length_cons, List.length_map] at hcount
      omega
    | cons t locals => exact ⟨t, locals, htail⟩

/-- A name that no scope of the function has an array for means the array of its caller. -/
theorem lengthOf?_eq (hg : g.Sound) (hone : g.scopes.length = 1) (h : InCall p g m)
    (hlocal : ∀ s ∈ m.scopes.dropLast, s.arrays.get? a = none) :
    m.scopes.lengthOf? a = g.scopes.lengthOf? a := by
  obtain ⟨-, s, locals, hshapes⟩ := h.shapes hg
  obtain ⟨global, hglobal⟩ := List.length_eq_one_iff.mp hone
  have hlast : m.scopes.shapes.dropLast = s :: locals := by
    rw [hshapes, hglobal, ← List.cons_append]
    exact List.dropLast_concat
  have hnone : (s :: locals).findSome? (fun t => t.length? a) = none := by
    rw [← hlast, Chain.shapes, ← List.map_dropLast, List.findSome?_map, List.findSome?_eq_none_iff]
    intro t ht
    show (t.arrays.get? a).map Array.size = none
    rw [hlocal t ht, Option.map_none]
  rw [Chain.lengthOf?_eq_shapes, Chain.lengthOf?_eq_shapes, hshapes, ← List.cons_append,
    List.findSome?_append, hnone, Option.none_or]

end Machine.InCall

/-- Indexes into the array find no array of the name, to read and to write. -/
def Machine.LacksArray (calls : Calls) (rounds : Nat) (m : Machine) (a : String) : Prop :=
  ∀ (i : Expr) (k : Value) (m₁ : Machine), i.eval calls m = (.ok k, m₁) →
    (Expr.index a i).eval calls m = (.error (.failure (.scope (.undefinedArray a))), m₁) ∧
    ∀ (e : Expr) (v : Value) (m₂ : Machine), e.eval calls m₁ = (.ok v, m₂) →
      (Stmt.assignIndex a i e).exec calls rounds m =
      (.error (.failure (.scope (.undefinedArray a))), m₂)

/-- Every index from `0` to `n - 1` reads a value and takes a value, which is there afterwards. -/
def Machine.HasArray (calls : Calls) (rounds : Nat) (m : Machine) (a : String) (n : Nat) : Prop :=
  ∀ (i : Expr) (k : Value) (m₁ : Machine), i.eval calls m = (.ok k, m₁) → 0 ≤ k.value →
    k.value < n → (∃ v, (Expr.index a i).eval calls m = (.ok v, m₁)) ∧
    ∀ (e : Expr) (v : Value) (m₂ : Machine), e.eval calls m₁ = (.ok v, m₂) →
      ∃ m₃, (Stmt.assignIndex a i e).exec calls rounds m = (.ok (), m₃) ∧
      m₃.scopes.element a k.value = .ok (Word.wrap v.value)

section Indexes

variable {rounds : Nat} {m : Machine} {a : String} {n : Nat}

include hcalls

/-- The arrays that an index finds are those in front of it, since its parts change no shapes. -/
theorem lengthOf?_after_eval (hm : m.Sound) {e : Expr} {v : Value} {m₁ : Machine}
    (he : e.eval calls m = (.ok v, m₁)) :
    m₁.Sound ∧ m₁.scopes.lengthOf? a = m.scopes.lengthOf? a := by
  obtain ⟨hm₁, -, harrays⟩ := keepsLengths_eval hcalls e m hm
  rw [he] at hm₁ harrays
  exact ⟨hm₁, harrays a⟩

theorem lacksArray_of_lengthOf? (hm : m.Sound) (hnone : m.scopes.lengthOf? a = none) :
    m.LacksArray calls rounds a := by
  intro i k m₁ hi
  obtain ⟨hm₁, harrays₁⟩ := lengthOf?_after_eval (a := a) hcalls hm hi
  refine ⟨?_, fun e v m₂ he => ?_⟩
  · have hread : reading (·.element a k.value) m₁ =
        (.error (.failure (.scope (.undefinedArray a))), m₁) := by
      rw [reading_apply,
        (Chain.element_of_lengthOf?_none (harrays₁.trans hnone) k.value 0).1, ofScope_error]
    rw [Expr.eval, bind_ok hi, bind_error hread]
  · obtain ⟨-, harrays₂⟩ := lengthOf?_after_eval (a := a) hcalls hm₁ he
    have hwrite :=
      (Chain.element_of_lengthOf?_none (harrays₂.trans (harrays₁.trans hnone)) k.value v.value).2
    rw [Stmt.exec, bind_ok hi, bind_ok he, changing_apply, hwrite]

theorem hasArray_of_lengthOf? (hm : m.Sound) (hsome : m.scopes.lengthOf? a = some n) :
    m.HasArray calls rounds a n := by
  intro i k m₁ hi h₀ hn
  obtain ⟨hm₁, harrays₁⟩ := lengthOf?_after_eval (a := a) hcalls hm hi
  refine ⟨?_, fun e v m₂ he => ?_⟩
  · obtain ⟨w, hw⟩ := (Chain.element_of_lengthOf? (harrays₁.trans hsome) h₀ hn).1
    have hread : reading (·.element a k.value) m₁ = (.ok w, m₁) := by
      rw [reading_apply, hw, ofScope_ok]
    exact ⟨⟨w, .uint32⟩, by rw [Expr.eval, bind_ok hi, bind_ok hread, pure_apply]⟩
  · obtain ⟨-, harrays₂⟩ := lengthOf?_after_eval (a := a) hcalls hm₁ he
    obtain ⟨c, hset, hget⟩ :=
      (Chain.element_of_lengthOf? (harrays₂.trans (harrays₁.trans hsome)) h₀ hn).2 v.value
    exact ⟨{ m₂ with
      scopes := c }, by rw [Stmt.exec, bind_ok hi, bind_ok he, changing_apply, hset], hget⟩

end Indexes

/-! ### Globals and statements -/

/-- Declarations before a program starts against the same declarations as statements, both from a
fresh machine. They agree on variables and on pointers that ask for no register, and up to the first
declaration that fails; on the first declaration of another kind they differ, unless it is a pointer
that fails in its first value; so if either way comes to its end, they agree if and only if there is
no declaration of another kind. After the globals no function finds an array outside of its own
scopes. After the statements it finds every array, at all places. -/
theorem globals_declared_alike_iff (p : Program) (fuel rounds : Nat) :
    let calls := p.calls fuel
    let asGlobals (ds : List Decl) := Program.declareGlobals calls ds {}
    let asStatements (ds : List Decl) := Stmt.execAll calls rounds (ds.map .decl) {}
    (∀ ds es, (∀ d ∈ ds, d.isWord = true) → asGlobals ds = asStatements ds ∧
      ((asGlobals ds).1 ≠ .ok () → asGlobals (ds ++ es) = asStatements (ds ++ es))) ∧
    (∀ ds m d, (∀ d ∈ ds, d.isWord = true) → asGlobals ds = (.ok (), m) →
      (Run.global calls d m = (Stmt.decl d).exec calls rounds m ↔
        d.isWord = true ∨ ∃ q, d = .pointer q ∧ q.Stuck calls m)) ∧
    (∀ ds, (asGlobals ds).1 = .ok () ∨ (asStatements ds).1 = .ok () →
      (asGlobals ds = asStatements ds ↔ ∀ d ∈ ds, d.isWord = true)) ∧
    (∀ ds g m a, asGlobals ds = (.ok (), g) → Machine.InCall p g m →
      (∀ s ∈ m.scopes.dropLast, s.arrays.get? a = none) →
      ∀ fuel rounds, m.LacksArray (p.calls fuel) rounds a) ∧
    ∀ ds es q n g m, asStatements (ds ++ .array q :: es) = (.ok (), g) → q.size = .literal n →
      (∀ q', .array q' ∈ es → q'.name ≠ q.name) → Machine.InCall p g m →
      (∀ s ∈ m.scopes.dropLast, s.arrays.get? q.name = none) →
      ∀ fuel rounds, m.HasArray (p.calls fuel) rounds q.name n := by
  intro calls asGlobals asStatements
  have hcalls := shapesKept.calls_careful p fuel
  refine ⟨?_, ?_, ?_, ?_, ?_⟩
  · intro ds es hds
    have heq : asGlobals ds = asStatements ds := congrFun (declareGlobals_eq_execAll hds) {}
    refine ⟨heq, fun hfails => ?_⟩
    rcases hresult : asGlobals ds with ⟨signal | ⟨⟩, m⟩
    · have hstmts : Stmt.execAll calls rounds (ds.map .decl) {} = (.error signal, m) :=
        heq.symm.trans hresult
      show Program.declareGlobals calls (ds ++ es) {} =
        Stmt.execAll calls rounds ((ds ++ es).map .decl) {}
      rw [declareGlobals_append, List.map_append, execAll_append, bind_error hresult,
        bind_error hstmts]
    · rw [hresult] at hfails
      exact absurd rfl hfails
  · intro ds m d hds hglobals
    have hm := Machine.bare_initial.keeps (keepsLengths_declareGlobals hcalls ds {})
    rw [show Program.declareGlobals calls ds {} = (.ok (), m) from hglobals] at hm
    rw [Stmt.exec]
    exact global_eq_decl_iff hcalls hm d
  · intro ds hends
    refine ⟨fun heq => ?_, fun hds => congrFun (declareGlobals_eq_execAll hds) {}⟩
    have hok : (asGlobals ds).1 = .ok () := hends.elim id fun h => by rw [heq]; exact h
    have hglobals : asGlobals ds = (.ok (), (asGlobals ds).2) := Prod.ext hok rfl
    exact isWord_of_both hcalls Machine.bare_initial hglobals (heq.symm.trans hglobals)
  · intro ds g m a hglobals hcall hlocal fuel' rounds'
    have hg := keepsLengths_declareGlobals hcalls ds {} Machine.sound_initial
    rw [show Program.declareGlobals calls ds {} = (.ok (), g) from hglobals] at hg
    refine lacksArray_of_lengthOf? (shapesKept.calls_careful p fuel') (hcall.shapes hg.1).1 ?_
    rw [hcall.lengthOf?_eq hg.1 hg.2.1 hlocal, hg.2.2 a]
    rfl
  · intro ds es q n g m hstmts hsize hlast hcall hlocal fuel' rounds'
    obtain ⟨hg, hlength⟩ := execAll_sound hcalls Machine.sound_initial hstmts
    refine hasArray_of_lengthOf? (shapesKept.calls_careful p fuel') (hcall.shapes hg).1 ?_
    rw [hcall.lengthOf?_eq hg hlength hlocal]
    exact execAll_array_lengthOf? hcalls Machine.sound_initial
      (List.cons_ne_nil _ _) hsize hlast hstmts

/-- A variable, a pointer to it and an array of three elements. -/
def tableDecls : List Decl :=
  [.var { name := "x", init := some (.literal 5) },
    .pointer { name := "q", init := some (.addressOf (.name "x")) },
    .array { name := "a", size := .literal 3 }]

/-- A main function that writes and reads the first element, behind the statements `ss`. -/
def tableProgram (globals : List Decl) (ss : List Stmt) : Program where
  functions := [⟨"main", [], ss ++
    [.assignIndex "a" (.literal 0) (.literal 7), .ret (some (.index "a" (.literal 0)))], false⟩]
  globals := globals

/-- The variable and the pointer are declared alike, the array is not: the main function lacks it
after the globals and has it after the statements. -/
theorem tableDecls_declared_apart :
    let p := tableProgram tableDecls []
    let calls := p.calls 1
    let asGlobals := Program.declareGlobals calls tableDecls {}
    let asStatements := Stmt.execAll calls 1 (tableDecls.map .decl) {}
    let inMain (g : Machine) : Machine := { g with scopes := {} :: g.scopes }
    Program.declareGlobals calls (tableDecls.take 2) {} =
      Stmt.execAll calls 1 ((tableDecls.take 2).map .decl) {} ∧
    asGlobals.1 = .ok () ∧ asStatements.1 = .ok () ∧ asGlobals ≠ asStatements ∧
    (inMain asGlobals.2).LacksArray calls 1 "a" ∧
    (inMain asStatements.2).HasArray calls 1 "a" 3 := by
  intro p calls asGlobals asStatements inMain
  have hglobals : asGlobals = (.ok (), asGlobals.2) := rfl
  have hstatements : asStatements = (.ok (), asStatements.2) := rfl
  have hlocal (g : Machine) (hone : g.scopes.length = 1) :
      ∀ s ∈ (inMain g).scopes.dropLast, s.arrays.get? "a" = none := by
    obtain ⟨global, hglobal⟩ := List.length_eq_one_iff.mp hone
    intro s hs
    have hscopes : (inMain g).scopes.dropLast = [{}] := by
      show List.dropLast ({} :: g.scopes) = [{}]
      rw [hglobal]
      rfl
    rw [hscopes, List.mem_singleton] at hs
    rw [hs]
    rfl
  obtain ⟨hwords, -, hends, hlacks, hhas⟩ := globals_declared_alike_iff p 1 1
  refine ⟨(hwords _ [] (by decide)).1, rfl, rfl, fun heq => ?_, ?_, ?_⟩
  · have hall := (hends tableDecls (.inl rfl)).mp heq
    exact absurd (hall _ (List.mem_cons_of_mem _ (List.mem_cons_of_mem _ List.mem_cons_self)))
      Bool.false_ne_true
  · exact hlacks tableDecls _ _ "a" hglobals (.called Scope.opened_empty) (hlocal _ rfl) 1 1
  · exact hhas (tableDecls.take 2) [] { name := "a", size := .literal 3 } 3 _ _ hstatements rfl
      (fun _ h => absurd h List.not_mem_nil) (.called Scope.opened_empty) (hlocal _ rfl) 1 1

/-- `uint32 a[3]; function main() { a[0] = 7; return a[0]; }` finds no array; with the declaration
inside of the function it answers seven. -/
theorem global_array_not_found :
    ((tableProgram [.array { name := "a", size := .literal 3 }] []).run 1 {}).1 =
      .error (.failure (.scope (.undefinedArray "a"))) ∧
    ((tableProgram [] [.decl (.array { name := "a", size := .literal 3 })]).run 1 {}).1 = .ok 7 :=
  ⟨rfl, rfl⟩

end WordC
