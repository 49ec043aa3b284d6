import WordC.Proofs.Scopes
import WordC.Scope.Tree

/-!
# The cells of one scope never overlap

Scopes are opened inside each other in any way, and operations are made on any of them in any order.
Variables take their cells late and arrays early, both from one counter that never goes back, so
whatever is declared again takes new cells and leaves the old ones to nobody. In a scope that stands
in no other one an address therefore has at most one owner: a store fails if it has none, and
otherwise sets what the owner has there and nothing else.

A variable can be set that was never declared and so has no tag. Tags play no part in where cells
are: under other tags the scope is sound, and setting a variable is declaring it.
-/

namespace WordC

variable {τ : Type}

namespace Scope

/-! ### Scopes without regard to tags -/

/-- The scope with other tags on its variables. -/
def withTags (s : Scope τ) (tags : Table Unit) : Scope Unit :=
  { vars := s.vars, types := tags, arrays := s.arrays
    cells := s.cells, bases := s.bases, nextCell := s.nextCell }

/-- A scope whose tables fit together, whatever its tags are. -/
def Laid (s : Scope τ) : Prop := ∃ tags, (s.withTags tags).Sound

variable {s s' : Scope τ} {x a : String} {cell : Int}

theorem laid_empty : ({} : Scope τ).Laid := ⟨{}, sound_empty⟩

theorem Laid.setVar (h : s.Laid) (x : String) (v : Int) : (s.setVar x v).Laid := by
  obtain ⟨tags, hs⟩ := h
  exact ⟨tags.set x (), hs.declare x v ()⟩

theorem Laid.declare (h : s.Laid) (x : String) (v : Int) (t : τ) : (s.declare x v t).Laid := by
  obtain ⟨tags, hs⟩ := h
  exact ⟨tags.set x (), hs.declare x v ()⟩

variable {elements : Array Int} {i : Nat} {w : Int}

theorem Laid.setElement (h : s.Laid) (ha : s.arrays.get? a = some elements)
    (i : Nat) (v : Int) : ({ s with
      arrays := s.arrays.set a (elements.setIfInBounds i (Word.wrap v)) } : Scope τ).Laid := by
  obtain ⟨tags, hs⟩ := h
  exact ⟨tags, hs.setElement ha i v⟩

theorem Laid.declareArray (h : s.Laid) {size first : Int}
    (ha : s.declareArray a size = .ok (first, s')) : s'.Laid := by
  obtain ⟨tags, hs⟩ := h
  have htags : (s.withTags tags).declareArray a size = .ok (first, s'.withTags tags) := by
    unfold Scope.declareArray at ha ⊢
    split at ha
    · cases ha
    · next hsize =>
      obtain ⟨rfl, rfl⟩ := Prod.mk.inj (Except.ok.inj ha)
      rw [if_neg hsize]
      rfl
  exact ⟨tags, hs.declareArray htags⟩

theorem Laid.variableCell (h : s.Laid) (hx : (s.vars.get? x).isSome = true) :
    (s.variableCell x).2.Laid := by
  obtain ⟨tags, hs⟩ := h
  have htags : ((s.withTags tags).variableCell x).2 = (s.variableCell x).2.withTags tags := by
    have hcells : (s.withTags tags).cells.get? x = s.cells.get? x := rfl
    unfold Scope.variableCell
    rw [hcells]
    cases s.cells.get? x <;> rfl
  exact ⟨tags, htags ▸ hs.variableCell hx⟩

theorem Step.laid (h : Step s s') (hs : s.Laid) : s'.Laid := by
  cases h with
  | assign x v _ => exact hs.setVar x v
  | declare x v t => exact hs.declare x v t
  | element a elements i v ha => exact hs.setElement ha i v
  | array a size first ha => exact hs.declareArray ha
  | cell x hx => exact hs.variableCell hx

/-! ### Who has a cell -/

/-- The cell is one of the owner's. -/
def HasCell (s : Scope τ) (o : Owner) (cell : Int) : Prop :=
  ∃ first behind, s.span? o = some (first, behind) ∧ first ≤ cell ∧ cell < behind

theorem hasCell_var : s.HasCell (.var x) cell ↔ s.cells.get? x = some cell := by
  constructor
  · rintro ⟨first, behind, hspan, hle, hlt⟩
    obtain ⟨n, hn, heq⟩ := Option.map_eq_some_iff.mp hspan
    obtain ⟨rfl, rfl⟩ := Prod.mk.inj heq
    rw [hn, show n = cell by omega]
  · intro h
    exact ⟨cell, cell + 1, span?_var h, Int.le_refl cell, by omega⟩

theorem hasCell_array : s.HasCell (.array a) cell ↔ ∃ base elements, s.bases.get? a = some base ∧
    s.arrays.get? a = some elements ∧ base ≤ cell ∧ cell < base + elements.size := by
  constructor
  · rintro ⟨first, behind, hspan, hle, hlt⟩
    obtain ⟨base, hbase, hrest⟩ := Option.bind_eq_some_iff.mp hspan
    obtain ⟨elements, helements, heq⟩ := Option.map_eq_some_iff.mp hrest
    obtain ⟨rfl, rfl⟩ := Prod.mk.inj heq
    exact ⟨base, elements, hbase, helements, hle, hlt⟩
  · rintro ⟨base, elements, hbase, helements, hle, hlt⟩
    exact ⟨base, _, span?_array hbase helements, hle, hlt⟩

section Laid

variable (h : s.Laid)
include h

theorem Laid.owner_unique {o p : Owner} (ho : s.HasCell o cell)
    (hp : s.HasCell p cell) : o = p := by
  obtain ⟨tags, hs⟩ := h
  obtain ⟨first, behind, ho, hle, hlt⟩ := ho
  obtain ⟨first', behind', hp, hle', hlt'⟩ := hp
  have hspan (q : Owner) : (s.withTags tags).span? q = s.span? q := by cases q <;> rfl
  rw [← hspan] at ho hp
  by_cases hop : o = p
  · exact hop
  · have := hs.apart o p first behind first' behind' hop ho hp
    omega

theorem Laid.hasCell_range {o : Owner} (ho : s.HasCell o cell) :
    1000 ≤ cell ∧ cell < s.nextCell := by
  obtain ⟨tags, hs⟩ := h
  obtain ⟨first, behind, ho, hle, hlt⟩ := ho
  have hspan : (s.withTags tags).span? o = s.span? o := by cases o <;> rfl
  rw [← hspan] at ho
  have hcounted := hs.counted o first behind ho
  have hnext : (s.withTags tags).nextCell = s.nextCell := rfl
  omega

theorem Laid.named (hx : (s.cells.get? x).isSome = true) : (s.vars.get? x).isSome = true := by
  obtain ⟨tags, hs⟩ := h
  obtain ⟨cell, hcell⟩ := Option.isSome_iff_exists.mp hx
  exact hs.named x cell hcell

theorem Laid.based (a : String) : (s.bases.get? a).isSome = (s.arrays.get? a).isSome := by
  obtain ⟨tags, hs⟩ := h
  exact hs.based a

theorem Laid.variableAt?_eq_some : s.variableAt? cell = some x ↔ s.HasCell (.var x) cell := by
  obtain ⟨tags, hs⟩ := h
  rw [hasCell_var]
  exact hs.variableAt?_eq_some

theorem Laid.elementAt?_eq_some {elements : Array Int} {i : Nat}
    (ha : s.elementAt? cell = some (a, elements, i)) : ∃ base, s.bases.get? a = some base ∧
    s.arrays.get? a = some elements ∧ base ≤ cell ∧ cell < base + elements.size ∧
      i = (cell - base).toNat := by
  obtain ⟨tags, hs⟩ := h
  exact hs.elementAt?_eq_some ha

/-- The two searches find nothing exactly where nobody has the cell. -/
theorem Laid.nobody_iff : (∀ o, ¬ s.HasCell o cell) ↔
    s.variableAt? cell = none ∧ s.elementAt? cell = none := by
  obtain ⟨tags, hs⟩ := h
  have howns : (s.withTags tags).Owns cell ↔ ∃ o, s.HasCell o cell := by
    constructor
    · rintro ⟨o, first, behind, ho, hrange⟩
      exact ⟨o, first, behind, by cases o <;> exact ho, hrange⟩
    · rintro ⟨o, first, behind, ho, hrange⟩
      exact ⟨o, first, behind, by cases o <;> exact ho, hrange⟩
  rw [← not_exists, ← howns]
  exact hs.not_owns_iff

end Laid

/-! ### What a store does -/

/-- The element of an array at a place. -/
def element? (s : Scope τ) (a : String) (i : Nat) : Option Int :=
  (s.arrays.get? a).bind fun elements => elements[i]?

/-- The cell of an element. -/
def elementCell? (s : Scope τ) (a : String) (i : Nat) : Option Int :=
  (s.element? a i).bind fun _ => (s.bases.get? a).map fun base => base + i

/-- What has its cell at the address is `w` now, and all else is as it was. -/
structure Stored (s s' : Scope τ) (address w : Int) : Prop where
  var : ∀ x, s'.vars.get? x = if s.cells.get? x = some address then some w else s.vars.get? x
  element : ∀ a i, s'.element? a i = if s.elementCell? a i = some address then some w
    else s.element? a i
  length : ∀ a, (s'.arrays.get? a).map Array.size = (s.arrays.get? a).map Array.size
  types : s'.types = s.types
  cells : s'.cells = s.cells
  bases : s'.bases = s.bases
  nextCell : s'.nextCell = s.nextCell

theorem exists_of_elementCell? (h : s.elementCell? a i = some cell) :
    ∃ base elements, s.bases.get? a = some base ∧ s.arrays.get? a = some elements ∧
    i < elements.size ∧ cell = base + i := by
  obtain ⟨v, hv, hrest⟩ := Option.bind_eq_some_iff.mp h
  obtain ⟨elements, helements, hi⟩ := Option.bind_eq_some_iff.mp hv
  obtain ⟨base, hbase, rfl⟩ := Option.map_eq_some_iff.mp hrest
  obtain ⟨hlt, -⟩ := Array.getElem?_eq_some_iff.mp hi
  exact ⟨base, elements, hbase, helements, hlt, rfl⟩

theorem elementCell?_eq {base : Int} (hbase : s.bases.get? a = some base)
    (helements : s.arrays.get? a = some elements) (hi : i < elements.size) :
    s.elementCell? a i = some (base + i) := by
  rw [elementCell?, element?, helements, Option.bind_some, Array.getElem?_eq_getElem hi,
    Option.bind_some, hbase, Option.map_some]

theorem Laid.stored_setVar (h : s.Laid) (hx : s.HasCell (.var x) cell) (v : Int) :
    s.Stored (s.setVar x v) cell (Word.wrap v) where
  var := by
    intro y
    have howner : s.cells.get? y = some cell ↔ x = y := by
      rw [← hasCell_var]
      exact ⟨fun hy => Owner.var.inj (h.owner_unique hx hy), fun hxy => hxy ▸ hx⟩
    show (s.vars.set x (Word.wrap v)).get? y = _
    rw [Table.get?_set]
    simp only [howner]
  element := by
    intro a i
    have hnot : ¬ s.elementCell? a i = some cell := by
      intro ha
      obtain ⟨base, elements, hbase, helements, hlt, rfl⟩ := exists_of_elementCell? ha
      have harray : s.HasCell (.array a) (base + i) :=
        hasCell_array.mpr ⟨base, elements, hbase, helements, by omega, by omega⟩
      cases h.owner_unique hx harray
    rw [if_neg hnot]
    rfl
  length := fun _ => rfl
  types := rfl
  cells := rfl
  bases := rfl
  nextCell := rfl

theorem Laid.stored_setElement (h : s.Laid) {base : Int} (hbase : s.bases.get? a = some base)
    (helements : s.arrays.get? a = some elements) (hle : base ≤ cell)
    (hlt : cell < base + elements.size) (v : Int) : s.Stored { s with
      arrays := s.arrays.set a (elements.setIfInBounds (cell - base).toNat (Word.wrap v)) } cell
    (Word.wrap v) where
  var := by
    intro y
    have harray : s.HasCell (.array a) cell :=
      hasCell_array.mpr ⟨base, elements, hbase, helements, hle, hlt⟩
    have hnot : ¬ s.cells.get? y = some cell := by
      intro hy
      cases h.owner_unique harray (hasCell_var.mpr hy)
    rw [if_neg hnot]
  element := by
    intro b i
    have harray : s.HasCell (.array a) cell :=
      hasCell_array.mpr ⟨base, elements, hbase, helements, hle, hlt⟩
    have howner : s.elementCell? b i = some cell ↔ a = b ∧ (cell - base).toNat = i := by
      constructor
      · intro hb
        obtain ⟨base', elements', hbase', helements', hi, rfl⟩ := exists_of_elementCell? hb
        have hb' : s.HasCell (.array b) (base' + i) :=
          hasCell_array.mpr ⟨base', elements', hbase', helements', by omega, by omega⟩
        obtain rfl := Owner.array.inj (h.owner_unique harray hb')
        obtain rfl := Option.some.inj (hbase.symm.trans hbase')
        exact ⟨rfl, by omega⟩
      · rintro ⟨rfl, rfl⟩
        rw [elementCell?_eq hbase helements (by omega)]
        congr 1
        omega
    unfold element?
    show ((s.arrays.set a _).get? b).bind _ = _
    rw [Table.get?_set]
    by_cases hab : a = b
    · subst hab
      rw [if_pos rfl, Option.bind_some, Array.getElem?_setIfInBounds, helements, Option.bind_some]
      simp only [howner, true_and]
      split
      · rw [if_pos (by omega)]
      · rfl
    · rw [if_neg hab]
      simp only [howner, hab, false_and, if_false]
  length := by
    intro b
    show ((s.arrays.set a _).get? b).map Array.size = _
    rw [Table.get?_set]
    split
    · next hab => rw [← hab, helements, Option.map_some, Option.map_some, Array.size_setIfInBounds]
    · rfl
  types := rfl
  cells := rfl
  bases := rfl
  nextCell := rfl

/-- The searches find the array that has a cell. -/
theorem Laid.elementAt?_of_hasCell (h : s.Laid) (ha : s.HasCell (.array a) cell) :
    s.variableAt? cell = none ∧ ∃ base elements, s.bases.get? a = some base ∧
    s.arrays.get? a = some elements ∧ base ≤ cell ∧
      cell < base + elements.size ∧ s.elementAt? cell =
      some (a, elements, (cell - base).toNat) := by
  have hvar : s.variableAt? cell = none := by
    rw [Option.eq_none_iff_forall_ne_some]
    intro x hx
    cases h.owner_unique ha (h.variableAt?_eq_some.mp hx)
  refine ⟨hvar, ?_⟩
  cases hfound : s.elementAt? cell with
  | none => exact absurd ha (h.nobody_iff.mpr ⟨hvar, hfound⟩ _)
  | some found =>
    obtain ⟨b, elements, i⟩ := found
    obtain ⟨base, hbase, helements, hle, hlt, rfl⟩ := h.elementAt?_eq_some hfound
    have hb : s.HasCell (.array b) cell :=
      hasCell_array.mpr ⟨base, elements, hbase, helements, hle, hlt⟩
    obtain rfl := Owner.array.inj (h.owner_unique ha hb)
    exact ⟨base, elements, hbase, helements, hle, hlt, rfl⟩

theorem Laid.load_var (h : s.Laid) (hx : s.HasCell (.var x) cell) (hw : s.vars.get? x = some w)
    (outer : Chain τ) : Chain.load (s :: outer) cell = .ok (Word.wrap w) := by
  rw [Chain.load, h.variableAt?_eq_some.mpr hx]
  simp only [hw, Option.getD_some]

theorem Laid.load_element (h : s.Laid) (hcell : s.elementCell? a i = some cell)
    (hw : s.element? a i = some w) (outer : Chain τ) :
    Chain.load (s :: outer) cell = .ok (Word.wrap w) := by
  obtain ⟨base, elements, hbase, helements, hi, rfl⟩ := exists_of_elementCell? hcell
  have ha : s.HasCell (.array a) (base + i) :=
    hasCell_array.mpr ⟨base, elements, hbase, helements, by omega, by omega⟩
  obtain ⟨hvar, base', elements', hbase', helements', -, -, hfound⟩ := h.elementAt?_of_hasCell ha
  obtain rfl := Option.some.inj (hbase.symm.trans hbase')
  obtain rfl := Option.some.inj (helements.symm.trans helements')
  have hplace : (base + i - base).toNat = i := by omega
  have hvalue : elements.getD i 0 = w := by
    rw [element?, helements, Option.bind_some] at hw
    rw [Array.getD_eq_getD_getElem?, hw, Option.getD_some]
  rw [Chain.load, hvar, hfound, hplace]
  simp only [hvalue]

/-- A store to an address that somebody has stays in the scope and sets what is there. -/
theorem Laid.store_owned (h : s.Laid) {o : Owner} (ho : s.HasCell o cell) (outer : Chain τ)
    (v : Int) : ∃ s', Chain.store (s :: outer) cell v = .ok (s' :: outer) ∧ s.Step s' ∧
    s.Stored s' cell (Word.wrap v) := by
  cases o with
  | var x =>
    have hx : (s.vars.get? x).isSome = true := h.named (by rw [hasCell_var.mp ho]; rfl)
    refine ⟨s.setVar x v, ?_, .assign x v hx, h.stored_setVar ho v⟩
    rw [Chain.store, h.variableAt?_eq_some.mpr ho]
  | array a =>
    obtain ⟨hvar, base, elements, hbase, helements, hle, hlt, hfound⟩ := h.elementAt?_of_hasCell ho
    refine ⟨_, ?_, .element a elements _ v helements, h.stored_setElement hbase helements hle hlt v⟩
    rw [Chain.store, hvar, hfound]

/-- What was stored is loaded. -/
theorem Stored.load (hstored : s.Stored s' cell w) (h' : s'.Laid) {o : Owner}
    (ho : s.HasCell o cell) (outer : Chain τ) :
    Chain.load (s' :: outer) cell = .ok (Word.wrap w) := by
  cases o with
  | var x =>
    have hcell := hasCell_var.mp ho
    have hcell' : s'.HasCell (.var x) cell := by rwa [hasCell_var, hstored.cells]
    refine h'.load_var hcell' ?_ outer
    rw [hstored.var, if_pos hcell]
  | array a =>
    obtain ⟨base, elements, hbase, helements, hle, hlt⟩ := hasCell_array.mp ho
    have hcell : s.elementCell? a (cell - base).toNat = some cell := by
      rw [elementCell?_eq hbase helements (by omega)]
      congr 1
      omega
    have hvalue : s'.element? a (cell - base).toNat = some w := by
      rw [hstored.element, if_pos hcell]
    refine h'.load_element ?_ hvalue outer
    rw [elementCell?, hvalue, Option.bind_some, hstored.bases, hbase, Option.map_some]
    congr 1
    omega

theorem Laid.store_nobody (h : s.Laid) (hno : ∀ o, ¬ s.HasCell o cell) (v : Int) :
    Chain.store [s] cell v = .error (.badAddress cell) := by
  obtain ⟨hvar, helem⟩ := h.nobody_iff.mp hno
  rw [Chain.store, hvar, helem]
  rfl

end Scope

/-! ### Chains -/

namespace Chain

variable {c c' : Chain τ}

def Laid (c : Chain τ) : Prop := ∀ s ∈ c, s.Laid

theorem Changed.laid (h : Changed c c') : c.Laid → c'.Laid := by
  induction h with
  | here hstep =>
    intro hc
    obtain ⟨hs, hrest⟩ := List.forall_mem_cons.mp hc
    exact List.forall_mem_cons.mpr ⟨hstep.laid hs, hrest⟩
  | outer _ ih =>
    intro hc
    obtain ⟨hs, hrest⟩ := List.forall_mem_cons.mp hc
    exact List.forall_mem_cons.mpr ⟨hs, ih hrest⟩

theorem Laid.edited_store (hc : c.Laid) {a v : Int} (h : c.store a v = .ok c') : Edited c c' := by
  refine Chain.edited_store (fun s hs x hx => ?_) h
  have hcell := Scope.hasCell_var.mp ((hc s hs).variableAt?_eq_some.mp hx)
  exact (hc s hs).named (by rw [hcell]; rfl)

end Chain

/-! ### Operations on a tree of scopes -/

/-- The operations of a scope that declare, set or look at cells. -/
inductive ScopeOp (τ : Type) where
  | declare (x : String) (v : Option Int) (t : τ)
  | set (x : String) (v : Int)
  | assign (x : String) (v : Int) (t : Option τ)
  | declareArray (a : String) (size : Int)
  | setElement (a : String) (i v : Int)
  | address (x : String)
  | load (address : Int)
  | store (address v : Int)

/-- An operation on the scope of a number: the address or value it answers, if it answers one, and
the tree behind it. -/
def ScopeOp.run (t : ScopeTree τ) (n : Nat) :
    ScopeOp τ → Except ScopeError (Option Int × ScopeTree τ)
  | declare x v tag => .ok (none, t.modifyScope n fun s => s.declare x (v.getD 0) tag)
  | set x v => .ok (none, t.modifyScope n fun s => s.setVar x v)
  | assign x v tag => do return (none, t.setChain n (← (t.chain n).assign x v tag))
  | declareArray a size => do
    let (base, s) ← (t.scope n).declareArray a size
    return (some base, t.modifyScope n fun _ => s)
  | setElement a i v => do return (none, t.setChain n (← (t.chain n).setElement a i v))
  | address x => do
    let (cell, c) ← (t.chain n).address x
    return (some cell, t.setChain n c)
  | load a => do return (some (← (t.chain n).load a), t)
  | store a v => do return (none, t.setChain n (← (t.chain n).store a v))

namespace ScopeTree

/-- The tree behind an operation; one that fails leaves it as it is. -/
def after (t : ScopeTree τ) (n : Nat) (op : ScopeOp τ) : ScopeTree τ :=
  match op.run t n with
  | .ok (_, t') => t'
  | .error _ => t

/-- The trees that come about by opening scopes and by operations on any of them. -/
inductive Reached : ScopeTree τ → Prop
  | start : Reached {}
  | opened {t : ScopeTree τ} (parent : Option Nat) : Reached t → Reached (t.insert parent).2
  | operated {t : ScopeTree τ} (n : Nat) (op : ScopeOp τ) : Reached t → Reached (t.after n op)

def Laid (t : ScopeTree τ) : Prop :=
  ∀ (i : Nat) (s : Scope τ) (parent : Option Nat), t.nodes[i]? = some (s, parent) → s.Laid

variable {t : ScopeTree τ} {n : Nat}

theorem Laid.chain (h : t.Laid) (n : Nat) : (t.chain n).Laid := by
  intro s hs
  obtain ⟨i, -, hi⟩ := List.mem_filterMap.mp hs
  obtain ⟨⟨s', parent⟩, hnode, rfl⟩ := Option.map_eq_some_iff.mp hi
  exact h i s' parent hnode

/-- Putting a laid scope in the place of another one. -/
theorem Laid.modify {nodes : Array (Scope τ × Option Nat)} (h : Laid ⟨nodes⟩) (n : Nat)
    (f : Scope τ → Scope τ) (hf : ∀ s parent, nodes[n]? = some (s, parent) → (f s).Laid) :
    Laid ⟨nodes.modify n fun node => (f node.1, node.2)⟩ := by
  intro i s parent hi
  rw [Array.getElem?_modify] at hi
  split at hi
  · next hni =>
    subst hni
    obtain ⟨⟨s', parent'⟩, hnode, heq⟩ := Option.map_eq_some_iff.mp hi
    obtain ⟨rfl, rfl⟩ := Prod.mk.inj heq
    exact hf s' parent' hnode
  · exact h i s parent hi

theorem Laid.setChain (h : t.Laid) (n : Nat) {c : Chain τ} (hc : c.Laid) :
    (t.setChain n c).Laid := by
  have hfold (pairs : List (Nat × Scope τ)) (hpairs : ∀ p ∈ pairs, p.2.Laid)
      (nodes : Array (Scope τ × Option Nat))
      (hnodes : Laid ⟨nodes⟩) : Laid
      ⟨pairs.foldl (fun nodes p => nodes.modify p.1 fun node => (p.2, node.2)) nodes⟩ := by
    induction pairs generalizing nodes with
    | nil => exact hnodes
    | cons p pairs ih =>
      obtain ⟨hp, hrest⟩ := List.forall_mem_cons.mp hpairs
      exact ih hrest _ (hnodes.modify p.1 (fun _ => p.2) fun _ _ _ => hp)
  exact hfold _ (fun p hp => hc p.2 (List.of_mem_zip hp).2) t.nodes h

theorem Laid.scope (h : t.Laid) (n : Nat) : (t.scope n).Laid := by
  unfold ScopeTree.scope
  cases hn : t.nodes[n]? with
  | none => exact Scope.laid_empty
  | some node => exact h n node.1 node.2 hn

/-- Every operation keeps the scopes of a tree laid, whether it answers or fails. -/
theorem Laid.after (h : t.Laid) (n : Nat) (op : ScopeOp τ) : (t.after n op).Laid := by
  unfold ScopeTree.after
  split
  case h_2 => exact h
  next answer t' hrun =>
  cases op with
  | declare x v tag =>
    obtain ⟨-, rfl⟩ := Prod.mk.inj (Except.ok.inj hrun)
    exact Laid.modify h n _ fun s parent hs => (h n s parent hs).declare x _ tag
  | set x v =>
    obtain ⟨-, rfl⟩ := Prod.mk.inj (Except.ok.inj hrun)
    exact Laid.modify h n _ fun s parent hs => (h n s parent hs).setVar x v
  | assign x v tag =>
    obtain ⟨c, hc, heq⟩ := Chain.bind_return_ok hrun
    obtain ⟨-, rfl⟩ := Prod.mk.inj heq
    exact h.setChain n ((Chain.changed_assign hc).laid (h.chain n))
  | declareArray a size =>
    obtain ⟨⟨base, s⟩, hs, heq⟩ := Chain.bind_return_ok hrun
    obtain ⟨-, rfl⟩ := Prod.mk.inj heq
    exact Laid.modify h n _ fun _ _ _ => (h.scope n).declareArray hs
  | setElement a i v =>
    obtain ⟨c, hc, heq⟩ := Chain.bind_return_ok hrun
    obtain ⟨-, rfl⟩ := Prod.mk.inj heq
    exact h.setChain n ((Chain.edited_setElement hc).changed.laid (h.chain n))
  | address x =>
    obtain ⟨⟨cell, c⟩, hc, heq⟩ := Chain.bind_return_ok hrun
    obtain ⟨-, rfl⟩ := Prod.mk.inj heq
    rcases Chain.edited_address hc with hsame | hch
    · exact h.setChain n (hsame ▸ h.chain n)
    · exact h.setChain n (hch.changed.laid (h.chain n))
  | load a =>
    obtain ⟨v, -, heq⟩ := Chain.bind_return_ok hrun
    obtain ⟨-, rfl⟩ := Prod.mk.inj heq
    exact h
  | store a v =>
    obtain ⟨c, hc, heq⟩ := Chain.bind_return_ok hrun
    obtain ⟨-, rfl⟩ := Prod.mk.inj heq
    exact h.setChain n (((h.chain n).edited_store hc).changed.laid (h.chain n))

theorem Reached.laid (h : t.Reached) : t.Laid := by
  induction h with
  | start =>
    intro i s parent hi
    cases i with
    | zero =>
      obtain ⟨rfl, -⟩ := Prod.mk.inj (Option.some.inj hi)
      exact Scope.laid_empty
    | succ i => cases hi
  | @opened t parent _ ih =>
    intro i s parent' hi
    have hpush : (t.nodes.push ({}, parent))[i]? = some (s, parent') := hi
    rw [Array.getElem?_push] at hpush
    split at hpush
    · obtain ⟨rfl, -⟩ := Prod.mk.inj (Option.some.inj hpush)
      exact Scope.laid_empty
    · exact ih i s parent' hpush
  | operated n op _ ih => exact ih.after n op

/-! ### A scope that stands in no other -/

section Outermost

variable {s : Scope τ} (hn : t.nodes[n]? = some (s, none))
include hn

theorem path_outermost : t.path n = [n] := by
  have hlt : n < t.nodes.size := by
    obtain ⟨hlt, -⟩ := Array.getElem?_eq_some_iff.mp hn
    exact hlt
  obtain ⟨k, hk⟩ : ∃ k, t.nodes.size = k + 1 := ⟨t.nodes.size - 1, by omega⟩
  rw [path, hk, pathFrom, hn]

theorem chain_outermost : t.chain n = [s] := by
  rw [chain, path_outermost hn, List.filterMap_cons, hn]
  rfl

theorem setChain_outermost (s' : Scope τ) : t.setChain n [s'] = t.modifyScope n fun _ => s' := by
  rw [setChain, path_outermost hn]
  rfl

theorem nodes_modifyScope (s' : Scope τ) :
    (t.modifyScope n fun _ => s').nodes[n]? = some (s', none) := by
  show (t.nodes.modify n fun node => (s', node.2))[n]? = _
  rw [Array.getElem?_modify, if_pos rfl, hn]
  rfl

end Outermost

/-- The cells of one scope are apart and between the start and the counter, and belong to names that
are there. In a scope that stands in no other one, a store to an address fails and changes nothing
exactly if nobody has the cell; else it sets what the owner has there to the number's word and
leaves all else as it is, and loading from the address gives this word. -/
theorem cells_never_overlap {t : ScopeTree τ} (ht : t.Reached) {n : Nat} {s : Scope τ}
    {parent : Option Nat} (hn : t.nodes[n]? = some (s, parent)) :
    (∀ o p cell, s.HasCell o cell → s.HasCell p cell → o = p) ∧
    (∀ o cell, s.HasCell o cell → 1000 ≤ cell ∧ cell < s.nextCell) ∧
    (∀ a, (s.bases.get? a).isSome = true → (s.arrays.get? a).isSome = true) ∧
    (∀ x, (s.cells.get? x).isSome = true → (s.vars.get? x).isSome = true) ∧
    (parent = none → ∀ a v : Int,
      ((∃ e, (ScopeOp.store a v).run t n = .error e) ↔ ∀ o, ¬ s.HasCell o a) ∧
      ((∀ o, ¬ s.HasCell o a) → t.after n (.store a v) = t) ∧
      ((∃ o, s.HasCell o a) →
        ∃ s', (ScopeOp.store a v).run t n = .ok (none, t.modifyScope n fun _ => s') ∧
        s.Stored s' a (Word.wrap v) ∧
        (ScopeOp.load a).run (t.after n (.store a v)) n =
        .ok (some (Word.wrap v), t.after n (.store a v)))) := by
  have hs : s.Laid := ht.laid n s parent hn
  refine ⟨fun o p cell => hs.owner_unique, fun o cell => hs.hasCell_range, ?_,
    fun x => hs.named, ?_⟩
  · intro a ha
    rwa [← hs.based a]
  · rintro rfl a v
    have hfails (hno : ∀ o, ¬ s.HasCell o a) :
        (ScopeOp.store a v).run t n = .error (.badAddress a) := by
      rw [ScopeOp.run, chain_outermost hn, hs.store_nobody hno]
      rfl
    have hstores (ho : ∃ o, s.HasCell o a) :
        ∃ s', (ScopeOp.store a v).run t n = .ok (none, t.modifyScope n fun _ => s') ∧
        s.Stored s' a (Word.wrap v) ∧ Chain.load [s'] a = .ok (Word.wrap v) := by
      obtain ⟨o, ho⟩ := ho
      obtain ⟨s', hstore, hstep, hstored⟩ := hs.store_owned ho [] v
      have hload := hstored.load (hstep.laid hs) ho []
      rw [Word.wrap_wrap] at hload
      refine ⟨s', ?_, hstored, hload⟩
      rw [ScopeOp.run, chain_outermost hn, hstore, ← setChain_outermost hn]
      rfl
    refine ⟨?_, ?_, ?_⟩
    · constructor
      · rintro ⟨e, he⟩ o ho
        obtain ⟨s', hok, -⟩ := hstores ⟨o, ho⟩
        rw [hok] at he
        cases he
      · exact fun hno => ⟨_, hfails hno⟩
    · intro hno
      rw [after, hfails hno]
    · intro ho
      obtain ⟨s', hok, hstored, hload⟩ := hstores ho
      have hafter : t.after n (.store a v) = t.modifyScope n fun _ => s' := by rw [after, hok]
      refine ⟨s', hok, hstored, ?_⟩
      rw [hafter, ScopeOp.run, chain_outermost (nodes_modifyScope hn s'), hload]
      rfl

/-- A name that is a variable with a cell and an array that was declared twice, so that the cells of
the first array are nobody's. -/
def sharedName : Scope Unit where
  vars := ⟨[("v", 5)]⟩
  arrays := ⟨[("v", #[0, 0])]⟩
  cells := ⟨[("v", 1000)]⟩
  bases := ⟨[("v", 1004)]⟩
  nextCell := 1006

theorem sharedName_stores :
    ∃ t : ScopeTree Unit, t.Reached ∧ t.nodes[0]? = some (sharedName, none) ∧
      sharedName.HasCell (.var "v") 1000 ∧ sharedName.HasCell (.array "v") 1005 ∧
      (∀ a v : Int, (∃ e, (ScopeOp.store a v).run t 0 = .error e) ↔ ∀ o, ¬ sharedName.HasCell o a) ∧
      (ScopeOp.store 1002 7).run t 0 = .error (.badAddress 1002) ∧
      (ScopeOp.load 1005).run (t.after 0 (.store 1005 (-1))) 0 =
      .ok (some 4294967295, t.after 0 (.store 1005 (-1))) := by
  have h₁ : Reached (({} : ScopeTree Unit).after 0 (.set "v" 5)) :=
    Reached.start.operated 0 (.set "v" 5)
  have h₂ := (h₁.operated 0 (.address "v")).operated 0 (.declareArray "v" 3)
  have h₃ := (h₂.opened (some 0)).operated 1 (.declare "w" none ())
  have h := (h₃.operated 1 (.address "v")).operated 0 (.declareArray "v" 2)
  have hvar : sharedName.HasCell (.var "v") 1000 := Scope.hasCell_var.mpr rfl
  have harray : sharedName.HasCell (.array "v") 1005 :=
    Scope.hasCell_array.mpr ⟨1004, #[0, 0], rfl, rfl, by decide, by decide⟩
  obtain ⟨-, -, -, -, hstores⟩ :=
    cells_never_overlap (n := 0) h (show _ = some (sharedName, none) from rfl)
  obtain ⟨s', -, -, hload⟩ := (hstores rfl 1005 (-1)).2.2 ⟨_, harray⟩
  exact ⟨_, h, rfl, hvar, harray, fun a v => (hstores rfl a v).1, rfl, hload⟩

end ScopeTree

end WordC
