import WordC.Proofs.Scopes

/-!
# Pointers to variables

The address of a variable is a number of the scope that has the variable, and it is looked up from
the innermost scope on. Every scope counts its cells from the same start, so the number may belong
to another cell further in, and then a pointer does not lead back to its variable. This file says
exactly when it does: no scope inside that of the variable has a cell of the same number, nor an
array of the same name, whose address would be taken in place of the variable's.
-/

namespace WordC

variable {τ : Type}

/-! ### Calls on the scopes of a chain -/

/-- A call on a scope that can change it or a scope around it. -/
inductive ScopeCall (τ : Type) where
  | declare (x : String) (v : Int) (t : τ)
  | assign (x : String) (v : Int) (t : Option τ)
  | declareArray (a : String) (size : Int)
  | setElement (a : String) (i v : Int)
  | address (x : String)
  | store (a v : Int)

/-- A call on the first scope of a chain. -/
def ScopeCall.run : ScopeCall τ → Chain τ → Except ScopeError (Chain τ)
  | declare x v t, s :: rest => .ok (s.declare x v t :: rest)
  | declareArray a size, s :: rest => do return (← s.declareArray a size).2 :: rest
  | declare _ _ _, [] | declareArray _ _, [] => .ok []
  | assign x v t, c => c.assign x v t
  | setElement a i v, c => c.setElement a i v
  | address x, c => do return (← c.address x).2
  | store a v, c => c.store a v

namespace Chain

/-- The chains that come about by opening scopes and calls on any of their scopes. A call that fails
changes nothing. -/
inductive Reached : Chain τ → Prop
  | none : Reached []
  | opened {c : Chain τ} : Reached c → Reached ({} :: c)
  | called {inner outer outer' : Chain τ} (call : ScopeCall τ) : Reached (inner ++ outer) →
      call.run outer = .ok outer' → Reached (inner ++ outer')

theorem Sound.run {c c' : Chain τ} (hc : c.Sound) (call : ScopeCall τ)
    (h : call.run c = .ok c') : c'.Sound := by
  cases call with
  | declare x v t =>
    cases c with
    | nil => rw [← Except.ok.inj h]; exact hc
    | cons s rest =>
      rw [← Except.ok.inj h]
      exact (Changed.here (.declare x v t)).sound hc
  | assign x v t => exact (changed_assign h).sound hc
  | declareArray a size =>
    cases c with
    | nil => rw [← Except.ok.inj h]; exact hc
    | cons s rest =>
      obtain ⟨⟨first, s'⟩, ha, rfl⟩ := bind_return_ok h
      exact (Changed.here (.array a size first ha)).sound hc
  | setElement a i v => exact (edited_setElement h).changed.sound hc
  | address x =>
    obtain ⟨⟨n, d⟩, ha, rfl⟩ := bind_return_ok h
    rcases edited_address ha with rfl | hch
    · exact hc
    · exact hch.changed.sound hc
  | store a v => exact (hc.edited_store h).changed.sound hc

theorem Reached.sound {c : Chain τ} (h : Reached c) : c.Sound := by
  induction h with
  | none => exact List.forall_mem_nil _
  | opened _ ih => exact List.forall_mem_cons.mpr ⟨Scope.sound_empty, ih⟩
  | called call _ hcall ih =>
    obtain ⟨hinner, houter⟩ := List.forall_mem_append.mp ih
    exact List.forall_mem_append.mpr ⟨hinner, Sound.run houter call hcall⟩

/-! ### Variables and arrays of each scope -/

/-- The variable of a name in the scope of a number, counted from the innermost one. -/
def var? (chain : Chain τ) (i : Nat) (x : String) : Option Int :=
  chain[i]?.bind fun s => s.vars.get? x

def array? (chain : Chain τ) (i : Nat) (a : String) : Option (Array Int) :=
  chain[i]?.bind fun s => s.arrays.get? a

/-- The number of the scope that a name means a variable of. -/
def ownerOf (c : Chain τ) (x : String) : Nat := c.findIdx fun s => s.vars.contains x

/-- A pointer to a variable leads back to it: it loads the value of the variable, and a store
through it sets the variable and leaves every other variable and every array of every scope as it
is. -/
def PointerSound (c : Chain τ) (x : String) : Prop :=
  ∃ a c₁ v, c.address x = .ok (a, c₁) ∧ c.get x = .ok v ∧ c₁.load a = .ok v ∧
    ∀ w, ∃ c₂, c₁.store a w = .ok c₂ ∧ c₂.get x = .ok (Word.wrap w) ∧
      (∀ i y, (i, y) ≠ (c.ownerOf x, x) → c₂.var? i y = c.var? i y) ∧
      ∀ i b, c₂.array? i b = c.array? i b

/-- No scope inside that of the variable has an array of its name or a cell of its number. -/
def Unaliased (c : Chain τ) (x : String) : Prop :=
  ∀ inner s outer, c = inner ++ s :: outer → (∀ i ∈ inner, i.vars.get? x = none) →
    (s.vars.get? x).isSome = true →
    ∀ i ∈ inner, i.arrays.get? x = none ∧ ¬ i.Owns (s.variableCell x).1

/-! ### Passing over inner scopes -/

section Inner

variable {inner rest outer : Chain τ} {s : Scope τ} {x : String} {a : Int}

theorem get_append (h : ∀ i ∈ inner, i.vars.get? x = none) :
    (inner ++ rest).get x = rest.get x := by
  induction inner with
  | nil => rfl
  | cons i inner ih =>
    obtain ⟨hi, hinner⟩ := List.forall_mem_cons.mp h
    rw [List.cons_append, get, hi]
    exact ih hinner

theorem exists_split_of_get {c : Chain τ} {v : Int} (h : c.get x = .ok v) : ∃ inner s outer, c =
    inner ++ s :: outer ∧ (∀ i ∈ inner, i.vars.get? x = none) ∧ s.vars.get? x = some v := by
  induction c with
  | nil => exact nomatch h
  | cons s rest ih =>
    rw [get] at h
    split at h
    · next w hw =>
      rw [Except.ok.inj h] at hw
      exact ⟨[], s, rest, rfl, List.forall_mem_nil _, hw⟩
    · next hs =>
      obtain ⟨inner, t, outer, rfl, hinner, ht⟩ := ih h
      exact ⟨s :: inner, t, outer, rfl, List.forall_mem_cons.mpr ⟨hs, hinner⟩, ht⟩

theorem ownerOf_split (h : ∀ i ∈ inner, i.vars.get? x = none) (hs : (s.vars.get? x).isSome = true) :
    (inner ++ s :: outer).ownerOf x = inner.length := by
  induction inner with
  | nil =>
    show List.findIdx _ (s :: outer) = 0
    rw [List.findIdx_cons, Table.contains, hs]
    rfl
  | cons i inner ih =>
    obtain ⟨hi, hinner⟩ := List.forall_mem_cons.mp h
    show List.findIdx _ (i :: (inner ++ s :: outer)) = inner.length + 1
    rw [List.findIdx_cons, Table.contains, hi]
    exact congrArg (· + 1) (ih hinner)

theorem address_append (hv : ∀ i ∈ inner, i.vars.get? x = none)
    (ha : ∀ i ∈ inner, i.arrays.get? x = none) (hs : (s.vars.get? x).isSome = true) :
    (inner ++ s :: outer).address x =
    .ok ((s.variableCell x).1, inner ++ (s.variableCell x).2 :: outer) := by
  induction inner with
  | nil =>
    rw [List.nil_append, address, Table.contains, if_pos hs]
    rfl
  | cons i inner ih =>
    obtain ⟨hvi, hvinner⟩ := List.forall_mem_cons.mp hv
    obtain ⟨hai, hainner⟩ := List.forall_mem_cons.mp ha
    have hnovar : ¬ i.vars.contains x = true := by
      rw [Table.contains, hvi]; exact Bool.false_ne_true
    have hnoarray : ¬ i.arrays.contains x = true := by
      rw [Table.contains, hai]; exact Bool.false_ne_true
    rw [List.cons_append, address, if_neg hnovar, if_neg hnoarray, ih hvinner hainner]
    rfl

/-- An array of the name further in: its first cell is taken as the address. -/
theorem address_array (rest : Chain τ) (hc : Sound inner) (hv : ∀ i ∈ inner, i.vars.get? x = none)
    (h : ∃ i ∈ inner, i.arrays.get? x ≠ none) :
    ∃ base, (inner ++ rest).address x = .ok (base, inner ++ rest) ∧ ∃ i ∈ inner, i.Owns base := by
  induction inner with
  | nil =>
    obtain ⟨i, hi, -⟩ := h
    exact absurd hi List.not_mem_nil
  | cons i inner ih =>
    obtain ⟨hvi, hvinner⟩ := List.forall_mem_cons.mp hv
    obtain ⟨hsi, hsinner⟩ := List.forall_mem_cons.mp hc
    have hnovar : ¬ i.vars.contains x = true := by
      rw [Table.contains, hvi]; exact Bool.false_ne_true
    rw [List.cons_append, address, if_neg hnovar]
    cases harr : i.arrays.get? x with
    | some elements =>
      have hbased : (i.bases.get? x).isSome = true := by rw [hsi.based x, harr]; rfl
      obtain ⟨base, hbase⟩ := Option.isSome_iff_exists.mp hbased
      have hspan := Scope.span?_array hbase harr
      have hcounted := hsi.counted _ _ _ hspan
      refine ⟨base, ?_, i, List.mem_cons_self, .array x, base, _, hspan,
        Int.le_refl base, hcounted.2.1⟩
      rw [Table.contains, harr, hbase]
      rfl
    | none =>
      obtain ⟨j, hj, hjarr⟩ := h
      have hjinner : j ∈ inner := by
        rcases List.mem_cons.mp hj with rfl | hmem
        · exact absurd harr hjarr
        · exact hmem
      obtain ⟨base, hread, k, hk, howns⟩ := ih hsinner hvinner ⟨j, hjinner, hjarr⟩
      refine ⟨base, ?_, k, List.mem_cons_of_mem i hk, howns⟩
      rw [Table.contains, harr, hread]
      rfl

theorem load_append (hc : Sound inner) (hno : ∀ i ∈ inner, ¬ i.Owns a) :
    (inner ++ rest).load a = rest.load a := by
  induction inner with
  | nil => rfl
  | cons i inner ih =>
    obtain ⟨hi, hinner⟩ := List.forall_mem_cons.mp hno
    obtain ⟨hsi, hsinner⟩ := List.forall_mem_cons.mp hc
    obtain ⟨hvar, helem⟩ := hsi.not_owns_iff.mp hi
    rw [List.cons_append, load, hvar, helem]
    exact ih hsinner hinner

theorem store_append (hc : Sound inner) (hno : ∀ i ∈ inner, ¬ i.Owns a) {rest' : Chain τ} {w : Int}
    (h : rest.store a w = .ok rest') : (inner ++ rest).store a w = .ok (inner ++ rest') := by
  induction inner with
  | nil => exact h
  | cons i inner ih =>
    obtain ⟨hi, hinner⟩ := List.forall_mem_cons.mp hno
    obtain ⟨hsi, hsinner⟩ := List.forall_mem_cons.mp hc
    obtain ⟨hvar, helem⟩ := hsi.not_owns_iff.mp hi
    rw [List.cons_append, store, hvar, helem]
    simp only
    rw [ih hsinner hinner]
    rfl

/-- A store to a cell of an inner scope stays inside, and declares no variable there. -/
theorem store_owned (rest : Chain τ) (hc : Sound inner) (hv : ∀ i ∈ inner, i.vars.get? x = none)
    (h : ∃ i ∈ inner, i.Owns a) (w : Int) : ∃ inner', (inner ++ rest).store a w =
    .ok (inner' ++ rest) ∧ ∀ i ∈ inner', i.vars.get? x = none := by
  induction inner with
  | nil =>
    obtain ⟨i, hi, -⟩ := h
    exact absurd hi List.not_mem_nil
  | cons i inner ih =>
    obtain ⟨hvi, hvinner⟩ := List.forall_mem_cons.mp hv
    obtain ⟨hsi, hsinner⟩ := List.forall_mem_cons.mp hc
    rw [List.cons_append, store]
    cases hvar : i.variableAt? a with
    | some y =>
      have hy : (i.vars.get? y).isSome = true := hsi.named y a (hsi.variableAt?_eq_some.mp hvar)
      have hyx : y ≠ x := by
        rintro rfl
        rw [hvi] at hy
        exact Bool.false_ne_true hy
      refine ⟨i.setVar y w :: inner, rfl, List.forall_mem_cons.mpr ⟨?_, hvinner⟩⟩
      exact (Table.get?_set_ne i.vars hyx _).trans hvi
    | none =>
      cases helem : i.elementAt? a with
      | some found => exact ⟨_ :: inner, rfl, List.forall_mem_cons.mpr ⟨hvi, hvinner⟩⟩
      | none =>
        obtain ⟨j, hj, howns⟩ := h
        have hjinner : j ∈ inner := by
          rcases List.mem_cons.mp hj with rfl | hmem
          · exact absurd howns (hsi.not_owns_iff.mpr ⟨hvar, helem⟩)
          · exact hmem
        obtain ⟨inner', hstore, hnone⟩ := ih hsinner hvinner ⟨j, hjinner, howns⟩
        refine ⟨i :: inner', ?_, List.forall_mem_cons.mpr ⟨hvi, hnone⟩⟩
        simp only
        rw [hstore]
        rfl

/-- What is seen of each scope when one of them is replaced. -/
theorem view_replace {β : Type} (f : Scope τ → Option β) {s' : Scope τ} (i : Nat)
    (h : i = inner.length → f s' = f s) :
    (inner ++ s' :: outer)[i]?.bind f = (inner ++ s :: outer)[i]?.bind f := by
  induction inner generalizing i with
  | nil =>
    cases i with
    | zero => exact h rfl
    | succ i => rfl
  | cons t inner ih =>
    cases i with
    | zero => rfl
    | succ i => exact ih i fun hi => h (congrArg (· + 1) hi)

/-! ### A scope's own variable -/

theorem vars_variableCell (s : Scope τ) (x : String) : (s.variableCell x).2.vars = s.vars := by
  unfold Scope.variableCell
  split <;> rfl

theorem arrays_variableCell (s : Scope τ) (x : String) :
    (s.variableCell x).2.arrays = s.arrays := by
  unfold Scope.variableCell
  split <;> rfl

theorem cells_variableCell (s : Scope τ) (x : String) :
    (s.variableCell x).2.cells.get? x = some (s.variableCell x).1 := by
  unfold Scope.variableCell
  split
  · next cell hcell => exact hcell
  · exact Table.get?_set_self _ _ _

theorem load_own (hs : s.Sound) (hx : s.cells.get? x = some a) :
    Chain.load (s :: outer) a = .ok (Word.wrap ((s.vars.get? x).getD 0)) := by
  rw [load, hs.variableAt?_eq_some.mpr hx]

theorem store_own (hs : s.Sound) (hx : s.cells.get? x = some a) (w : Int) :
    Chain.store (s :: outer) a w = .ok (s.setVar x w :: outer) := by
  rw [store, hs.variableAt?_eq_some.mpr hx]

/-- Where nothing further in takes the name or the number, the pointer leads back. -/
theorem pointerSound_of_clear {v : Int} (hc : Sound (inner ++ s :: outer))
    (hv : ∀ i ∈ inner, i.vars.get? x = none) (hs : s.vars.get? x = some v)
    (hclear : ∀ i ∈ inner, i.arrays.get? x = none ∧ ¬ i.Owns (s.variableCell x).1) :
    PointerSound (inner ++ s :: outer) x := by
  obtain ⟨hinner, hsouter⟩ := List.forall_mem_append.mp hc
  have hsound : s.Sound := hsouter s List.mem_cons_self
  have hsome : (s.vars.get? x).isSome = true := by rw [hs]; rfl
  have hown : (s.variableCell x).2.Sound := hsound.variableCell hsome
  have hcell := cells_variableCell s x
  have hnot : ∀ i ∈ inner, ¬ i.Owns (s.variableCell x).1 := fun i hi => (hclear i hi).2
  refine ⟨(s.variableCell x).1, inner ++ (s.variableCell x).2 :: outer, v,
    address_append hv (fun i hi => (hclear i hi).1) hsome, ?_, ?_, ?_⟩
  · rw [get_append hv, get, hs]
  · rw [load_append hinner hnot, load_own hown hcell, vars_variableCell, hs]
    exact congrArg Except.ok (hsound.word x v hs)
  · intro w
    refine ⟨_, store_append hinner hnot (store_own hown hcell w), ?_, ?_, ?_⟩
    · rw [get_append hv, get, Scope.setVar, Table.get?_set_self]
    · intro i y hiy
      rw [ownerOf_split hv hsome] at hiy
      refine view_replace (fun t => t.vars.get? y) i fun hi => ?_
      have hxy : x ≠ y := fun hxy => hiy (by rw [hi, hxy])
      show (Table.set _ x (Word.wrap w)).get? y = s.vars.get? y
      rw [Table.get?_set_ne _ hxy, vars_variableCell]
    · intro i b
      refine view_replace (fun t => t.arrays.get? b) i fun _ => ?_
      show (s.variableCell x).2.arrays.get? b = s.arrays.get? b
      rw [arrays_variableCell]

/-- Where the address is a cell of an inner scope, stores through it never reach the variable. -/
theorem not_pointerSound_of_owned {c : Chain τ} {s' : Scope τ} (hc : Sound inner)
    (hv : ∀ i ∈ inner, i.vars.get? x = none)
    (haddress : c.address x = .ok (a, inner ++ s' :: outer)) (howned : ∃ i ∈ inner, i.Owns a) :
    ¬ PointerSound c x := by
  rintro ⟨a', c₁, v, ha, -, -, hstore⟩
  obtain ⟨rfl, rfl⟩ := Prod.mk.inj (Except.ok.inj (haddress.symm.trans ha))
  have hkept (w : Int) : Chain.get (s' :: outer) x = .ok (Word.wrap w) := by
    obtain ⟨c₂, hc₂, hget, -⟩ := hstore w
    obtain ⟨inner', hinner', hnone⟩ := store_owned (s' :: outer) hc hv howned w
    obtain rfl := Except.ok.inj (hc₂.symm.trans hinner')
    rwa [get_append hnone] at hget
  have hwords : Word.wrap 0 = Word.wrap 1 := Except.ok.inj ((hkept 0).symm.trans (hkept 1))
  exact absurd hwords (by decide)

end Inner

/-- A pointer to a variable that can be seen leads back to it exactly when no scope further in has
an array of its name or a cell of its number. -/
theorem pointerSound_iff_unaliased {c : Chain τ} {x : String} (hc : c.Reached)
    (hx : ∃ v, c.get x = .ok v) : c.PointerSound x ↔ c.Unaliased x := by
  constructor
  · intro hsound inner s outer hsplit hv hs
    subst hsplit
    obtain ⟨hinner, -⟩ := List.forall_mem_append.mp hc.sound
    have harrays : ∀ i ∈ inner, i.arrays.get? x = none := by
      intro i hi
      by_cases harr : i.arrays.get? x = none
      · exact harr
      · obtain ⟨base, haddress, howned⟩ := address_array (s :: outer) hinner hv ⟨i, hi, harr⟩
        exact absurd hsound (not_pointerSound_of_owned hinner hv haddress howned)
    intro i hi
    refine ⟨harrays i hi, ?_⟩
    intro howns
    exact not_pointerSound_of_owned hinner hv (address_append hv harrays hs) ⟨i, hi, howns⟩ hsound
  · intro hclear
    obtain ⟨v, hget⟩ := hx
    obtain ⟨inner, s, outer, rfl, hv, hs⟩ := exists_split_of_get hget
    exact pointerSound_of_clear hc.sound hv hs (hclear inner s outer rfl hv (by rw [hs]; rfl))

theorem Reached.first {c c' : Chain τ} (h : c.Reached) (call : ScopeCall τ)
    (hcall : call.run c = .ok c') : c'.Reached :=
  @Reached.called τ [] c c' call h hcall

theorem unaliased_pair {s t : Scope τ} {x : String} (harray : s.arrays.get? x = none)
    (howns : ¬ s.Owns (t.variableCell x).1) : Unaliased [s, t] x := by
  intro inner u outer hsplit _ _ i hi
  cases inner with
  | nil => exact absurd hi List.not_mem_nil
  | cons first inner =>
    obtain ⟨rfl, hrest⟩ := List.cons.inj hsplit
    cases inner with
    | nil =>
      obtain ⟨rfl, rfl⟩ := List.cons.inj hrest
      rw [List.mem_singleton.mp hi]
      exact ⟨harray, howns⟩
    | cons second inner => exact absurd (List.cons.inj hrest).2 (by simp)

/-- The variable has the second cell of its scope, the scope inside has a first cell only. -/
theorem pointerSound_second_cell : ∃ c : Chain Unit, c.Reached ∧ (∃ v, c.get "x" = .ok v) ∧
    c.Unaliased "x" ∧ c.PointerSound "x" := by
  let s : Scope Unit := ((({} : Scope Unit).declare "y" 7 ()).variableCell "y").2
  let t : Scope Unit := ((((({} : Scope Unit).declare "z" 3 ()).declare "x" 5
    ()).variableCell "z").2.variableCell "x").2
  have h₀ : Reached [({} : Scope Unit)] := .opened .none
  have h₁ := ((h₀.first (.declare "z" 3 ()) rfl).first (.declare "x" 5 ()) rfl).first
    (.address "z") rfl
  have h₂ : Reached [t] := h₁.first (.address "x") rfl
  have h : Reached [s, t] := (h₂.opened.first (.declare "y" 7 ()) rfl).first (.address "y") rfl
  have hs : s.Sound := h.sound s List.mem_cons_self
  have hclear : Unaliased [s, t] "x" := unaliased_pair rfl (hs.not_owns_iff.mpr ⟨rfl, rfl⟩)
  have hget : ∃ v, Chain.get [s, t] "x" = .ok v := ⟨5, rfl⟩
  exact ⟨[s, t], h, hget, hclear, (pointerSound_iff_unaliased h hget).mpr hclear⟩

/-- Two first cells of one number: the pointer to the outer variable loads the inner one, and a
store through it changes the inner one. -/
theorem pointer_to_inner_cell : ∃ c c₁ c₂ : Chain Unit, c.Reached ∧ c.get "x" = .ok 5 ∧
    c.address "x" = .ok (1000, c₁) ∧ c₁.load 1000 = .ok 7 ∧
      c₁.store 1000 9 = .ok c₂ ∧ c₂.get "x" = .ok 5 ∧ c₂.get "y" = .ok 9 ∧
      ¬ c.PointerSound "x" := by
  have h₀ : Reached [({} : Scope Unit)] := .opened .none
  have h₁ := (h₀.first (.declare "x" 5 ()) rfl).opened
  have h := (h₁.first (.declare "y" 7 ()) rfl).first (.address "y") rfl
  refine ⟨_, _, _, h, rfl, rfl, rfl, rfl, rfl, rfl, ?_⟩
  rintro ⟨a, c₁, v, haddress, hget, hload, -⟩
  obtain ⟨rfl, rfl⟩ := Prod.mk.inj (Except.ok.inj haddress)
  have hfive : 5 = v := Except.ok.inj hget
  have hseven : 7 = v := Except.ok.inj hload
  omega

end Chain

end WordC
