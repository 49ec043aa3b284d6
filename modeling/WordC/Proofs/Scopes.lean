import WordC.Proofs.Tables
import WordC.Scope.Chain

/-!
# What a scope keeps

A scope changes in five ways only: a variable that is there is set, a variable is declared, an
element of an array is set, an array is declared, a variable gets a cell. Every call on a chain of
scopes changes one scope in one of these ways. So what is kept by the five ways is kept by all
calls: values are words, tags stand at the variables, and the cells of a scope are those of its
variables and arrays, below the counter and apart from each other.
-/

namespace WordC

variable {τ : Type}

namespace Scope

/-! ### Who owns a cell -/

/-- What can own cells. -/
inductive Owner where
  | var (x : String)
  | array (a : String)
  deriving DecidableEq

/-- The first cell of an owner and the one behind its last. -/
def span? (s : Scope τ) : Owner → Option (Int × Int)
  | .var x => (s.cells.get? x).map fun cell => (cell, cell + 1)
  | .array a =>
    (s.bases.get? a).bind fun base => (s.arrays.get? a).map fun elements =>
      (base, base + elements.size)

/-- A cell of the scope. -/
def Owns (s : Scope τ) (cell : Int) : Prop :=
  ∃ o first behind, s.span? o = some (first, behind) ∧ first ≤ cell ∧ cell < behind

variable {s s' : Scope τ} {a x : String} {cell : Int} {elements : Array Int}

theorem span?_var (h : s.cells.get? x = some cell) :
    s.span? (.var x) = some (cell, cell + 1) := by
  rw [span?, h]
  rfl

theorem span?_array {base : Int} (hb : s.bases.get? a = some base)
    (ha : s.arrays.get? a = some elements) :
    s.span? (.array a) = some (base, base + elements.size) := by
  rw [span?, hb, Option.bind_some, ha]
  rfl

/-! ### The invariant -/

/-- A scope whose tables fit together. -/
structure Sound (s : Scope τ) : Prop where
  cellKeys : s.cells.keys.Nodup
  baseKeys : s.bases.keys.Nodup
  word : ∀ x v, s.vars.get? x = some v → Word.wrap v = v
  element : ∀ a elements, s.arrays.get? a = some elements → ∀ v ∈ elements, Word.wrap v = v
  tagged : ∀ x, (s.types.get? x).isSome = (s.vars.get? x).isSome
  named : ∀ x cell, s.cells.get? x = some cell → (s.vars.get? x).isSome = true
  based : ∀ a, (s.bases.get? a).isSome = (s.arrays.get? a).isSome
  counted : ∀ o first behind, s.span? o = some (first, behind) →
    1000 ≤ first ∧ first < behind ∧ behind ≤ s.nextCell
  apart : ∀ o p first behind first' behind', o ≠ p → s.span? o = some (first, behind) →
    s.span? p = some (first', behind') → behind ≤ first' ∨ behind' ≤ first
  start : 1000 ≤ s.nextCell

theorem sound_empty : ({} : Scope τ).Sound where
  cellKeys := List.nodup_nil
  baseKeys := List.nodup_nil
  word := fun _ _ h => nomatch h
  element := fun _ _ h => nomatch h
  tagged := fun _ => rfl
  named := fun _ _ h => nomatch h
  based := fun _ => rfl
  counted := by
    intro o first behind h
    cases o with
    | var x => exact nomatch h
    | array a => exact nomatch h
  apart := by
    intro o p first behind first' behind' _ h
    cases o with
    | var x => exact nomatch h
    | array a => exact nomatch h
  start := Int.le_refl 1000

/-! ### The ways in which a scope changes -/

inductive Step : Scope τ → Scope τ → Prop
  | assign {s : Scope τ} (x : String) (v : Int) :
      (s.vars.get? x).isSome = true → Step s (s.setVar x v)
  | declare {s : Scope τ} (x : String) (v : Int) (t : τ) : Step s (s.declare x v t)
  | element {s : Scope τ} (a : String) (elements : Array Int) (i : Nat) (v : Int) :
      s.arrays.get? a = some elements →
      Step s { s with arrays := s.arrays.set a (elements.setIfInBounds i (Word.wrap v)) }
  | array {s s' : Scope τ} (a : String) (size first : Int) :
      s.declareArray a size = .ok (first, s') → Step s s'
  | cell {s : Scope τ} (x : String) : (s.vars.get? x).isSome = true → Step s (s.variableCell x).2

/-- The changes that declare nothing. -/
inductive Edit : Scope τ → Scope τ → Prop
  | assign {s : Scope τ} (x : String) (v : Int) :
      (s.vars.get? x).isSome = true → Edit s (s.setVar x v)
  | element {s : Scope τ} (a : String) (elements : Array Int) (i : Nat) (v : Int) :
      s.arrays.get? a = some elements →
      Edit s { s with arrays := s.arrays.set a (elements.setIfInBounds i (Word.wrap v)) }
  | cell {s : Scope τ} (x : String) : (s.vars.get? x).isSome = true → Edit s (s.variableCell x).2

theorem Edit.step (h : s.Edit s') : s.Step s' := by
  cases h with
  | assign x v hx => exact .assign x v hx
  | element a elements i v ha => exact .element a elements i v ha
  | cell x hx => exact .cell x hx

/-- An owner that takes the cells at the counter keeps the cells apart. -/
theorem Sound.spans_of_allocate (h : s.Sound) {o : Owner} {n : Int} (hn : 0 < n)
    (hnew : s'.span? o = some (s.nextCell, s.nextCell + n))
    (hold : ∀ p, p ≠ o → s'.span? p = s.span? p) (hnext : s'.nextCell = s.nextCell + n) :
    (∀ p first behind, s'.span? p = some (first, behind) →
      1000 ≤ first ∧ first < behind ∧ behind ≤ s'.nextCell) ∧
    ∀ p q first behind first' behind', p ≠ q → s'.span? p = some (first, behind) →
      s'.span? q = some (first', behind') → behind ≤ first' ∨ behind' ≤ first := by
  have hstart := h.start
  have hown {first behind : Int} (ho : s'.span? o = some (first, behind)) :
      first = s.nextCell ∧ behind = s.nextCell + n := by
    rw [hnew] at ho
    obtain ⟨rfl, rfl⟩ := Prod.mk.inj (Option.some.inj ho)
    exact ⟨rfl, rfl⟩
  constructor
  · intro p first behind hp
    by_cases hpo : p = o
    · subst hpo
      obtain ⟨rfl, rfl⟩ := hown hp
      omega
    · rw [hold p hpo] at hp
      have := h.counted p first behind hp
      omega
  · intro p q first behind first' behind' hpq hp hq
    by_cases hpo : p = o
    · subst hpo
      obtain ⟨rfl, rfl⟩ := hown hp
      rw [hold q (Ne.symm hpq)] at hq
      have := h.counted q first' behind' hq
      omega
    · rw [hold p hpo] at hp
      by_cases hqo : q = o
      · subst hqo
        obtain ⟨rfl, rfl⟩ := hown hq
        have := h.counted p first behind hp
        omega
      · rw [hold q hqo] at hq
        exact h.apart p q first behind first' behind' hpq hp hq

/-- A table that is set where it already had a value has values at the same names. -/
theorem isSome_get?_set {α : Type} {t : Table α} (hx : (t.get? x).isSome = true) (v : α)
    (y : String) : ((t.set x v).get? y).isSome = (t.get? y).isSome := by
  rw [Table.get?_set]
  split
  · next hxy => rw [← hxy, hx]; rfl
  · rfl

theorem word_set {t : Table Int} (ht : ∀ x v, t.get? x = some v → Word.wrap v = v) (x : String)
    (v : Int) : ∀ y w, (t.set x (Word.wrap v)).get? y = some w → Word.wrap w = w := by
  intro y w hy
  rw [Table.get?_set] at hy
  split at hy
  · rw [← Option.some.inj hy, Word.wrap_wrap]
  · exact ht y w hy

theorem Sound.setVar (h : s.Sound) (hx : (s.vars.get? x).isSome = true) (v : Int) :
    (s.setVar x v).Sound where
  cellKeys := h.cellKeys
  baseKeys := h.baseKeys
  word := word_set h.word x v
  element := h.element
  tagged := fun y => (h.tagged y).trans (isSome_get?_set hx _ y).symm
  named := fun y cell hy => (isSome_get?_set hx _ y).trans (h.named y cell hy)
  based := h.based
  counted := fun o first behind ho => h.counted o first behind (by cases o <;> exact ho)
  apart := fun o p first behind first' behind' hop ho hp =>
    h.apart o p first behind first' behind' hop (by cases o <;> exact ho) (by cases p <;> exact hp)
  start := h.start

theorem Sound.declare (h : s.Sound) (x : String) (v : Int) (t : τ) : (s.declare x v t).Sound where
  cellKeys := h.cellKeys
  baseKeys := h.baseKeys
  word := word_set h.word x v
  element := h.element
  tagged := by
    intro y
    show ((s.types.set x t).get? y).isSome = ((s.vars.set x (Word.wrap v)).get? y).isSome
    rw [Table.get?_set, Table.get?_set]
    split
    · rfl
    · exact h.tagged y
  named := by
    intro y cell hy
    show ((s.vars.set x (Word.wrap v)).get? y).isSome = true
    rw [Table.get?_set]
    split
    · rfl
    · exact h.named y cell hy
  based := h.based
  counted := fun o first behind ho => h.counted o first behind (by cases o <;> exact ho)
  apart := fun o p first behind first' behind' hop ho hp =>
    h.apart o p first behind first' behind' hop (by cases o <;> exact ho) (by cases p <;> exact hp)
  start := h.start

theorem mem_setIfInBounds (h : ∀ v ∈ elements, Word.wrap v = v) (i : Nat) (v : Int) :
    ∀ w ∈ elements.setIfInBounds i (Word.wrap v), Word.wrap w = w := by
  intro w hw
  rcases Array.mem_or_eq_of_mem_setIfInBounds hw with hmem | rfl
  · exact h w hmem
  · exact Word.wrap_wrap v

/-- Setting an element moves no cells. -/
theorem span?_setElement (ha : s.arrays.get? a = some elements) (i : Nat) (v : Int) (o : Owner) :
    ({ s with arrays := s.arrays.set a (elements.setIfInBounds i v) } : Scope τ).span? o =
    s.span? o := by
  cases o with
  | var x => rfl
  | array b =>
    unfold span?
    simp only [Table.get?_set]
    split
    · next hab =>
      subst hab
      simp only [ha, Option.map_some, Array.size_setIfInBounds]
    · rfl

theorem Sound.setElement (h : s.Sound) (ha : s.arrays.get? a = some elements)
    (i : Nat) (v : Int) : ({ s with
      arrays := s.arrays.set a (elements.setIfInBounds i (Word.wrap v)) } : Scope τ).Sound where
  cellKeys := h.cellKeys
  baseKeys := h.baseKeys
  word := h.word
  element := by
    intro b els hb
    rw [Table.get?_set] at hb
    split at hb
    · rw [← Option.some.inj hb]
      exact mem_setIfInBounds (h.element a elements ha) i v
    · exact h.element b els hb
  tagged := h.tagged
  named := h.named
  based := by
    intro b
    have hsome : (s.arrays.get? a).isSome = true := by rw [ha]; rfl
    exact (h.based b).trans (isSome_get?_set hsome _ b).symm
  counted := by
    intro o first behind ho
    rw [span?_setElement ha] at ho
    exact h.counted o first behind ho
  apart := by
    intro o p first behind first' behind' hop ho hp
    rw [span?_setElement ha] at ho hp
    exact h.apart o p first behind first' behind' hop ho hp
  start := h.start

theorem Sound.declareArray (h : s.Sound) {size first : Int}
    (ha : s.declareArray a size = .ok (first, s')) : s'.Sound := by
  unfold Scope.declareArray at ha
  split at ha
  · exact nomatch ha
  next hsize =>
  obtain ⟨-, rfl⟩ := Prod.mk.inj (Except.ok.inj ha)
  have hpos : 0 < size := by omega
  have hcast : ((Array.replicate size.toNat (0 : Int)).size : Int) = size := by
    rw [Array.size_replicate]
    omega
  have hnew : ({ s with
      arrays := s.arrays.set a (Array.replicate size.toNat 0)
      bases := s.bases.set a s.nextCell
      nextCell := s.nextCell + size } : Scope τ).span? (.array a) =
      some (s.nextCell, s.nextCell + size) := by
    rw [span?_array (Table.get?_set_self _ _ _) (Table.get?_set_self _ _ _), hcast]
  have hspans := h.spans_of_allocate hpos hnew (by
    intro p hp
    cases p with
    | var x => rfl
    | array b =>
      have hab : a ≠ b := fun hab => hp (congrArg Owner.array hab.symm)
      simp only [span?, Table.get?_set_ne _ hab]) rfl
  refine ⟨h.cellKeys, Table.nodup_keys_set h.baseKeys a _, h.word, ?_, h.tagged, h.named, ?_,
    hspans.1, hspans.2, ?_⟩
  · intro b elements hb
    rw [Table.get?_set] at hb
    split at hb
    · rw [← Option.some.inj hb]
      intro v hv
      rw [(Array.mem_replicate.mp hv).2]
      rfl
    · exact h.element b elements hb
  · intro b
    show ((s.bases.set a s.nextCell).get? b).isSome = ((s.arrays.set a _).get? b).isSome
    rw [Table.get?_set, Table.get?_set]
    split
    · rfl
    · exact h.based b
  · have := h.start
    show 1000 ≤ s.nextCell + size
    omega

theorem Sound.variableCell (h : s.Sound) (hx : (s.vars.get? x).isSome = true) :
    (s.variableCell x).2.Sound := by
  unfold Scope.variableCell
  split
  · exact h
  · have hnew : ({ s with cells := s.cells.set x s.nextCell, nextCell := s.nextCell + 1 } :
          Scope τ).span? (.var x) =
        some (s.nextCell, s.nextCell + 1) := span?_var (Table.get?_set_self _ _ _)
    have hspans := h.spans_of_allocate Int.one_pos hnew (by
      intro p hp
      cases p with
      | var y =>
        have hxy : x ≠ y := fun hxy => hp (congrArg Owner.var hxy.symm)
        simp only [span?, Table.get?_set_ne _ hxy]
      | array b => rfl) rfl
    refine ⟨Table.nodup_keys_set h.cellKeys x _, h.baseKeys, h.word, h.element, h.tagged, ?_,
      h.based, hspans.1, hspans.2, ?_⟩
    · intro y cell hy
      by_cases hxy : x = y
      · rw [← hxy]
        exact hx
      · rw [Table.get?_set_ne _ hxy] at hy
        exact h.named y cell hy
    · have := h.start
      show 1000 ≤ s.nextCell + 1
      omega

theorem Step.sound (hstep : Step s s') (h : s.Sound) : s'.Sound := by
  cases hstep with
  | assign x v hx => exact h.setVar hx v
  | declare x v t => exact h.declare x v t
  | element a elements i v ha => exact h.setElement ha i v
  | array a size first ha => exact h.declareArray ha
  | cell x hx => exact h.variableCell hx

/-! ### Looking a cell up -/

theorem Sound.variableAt?_eq_some (h : s.Sound) :
    s.variableAt? cell = some x ↔ s.cells.get? x = some cell := by
  unfold variableAt?
  constructor
  · intro hx
    obtain ⟨⟨y, n⟩, hfind, rfl⟩ := Option.map_eq_some_iff.mp hx
    have hbeq : (n == cell) = true :=
      List.find?_some (p := fun e : String × Int => e.2 == cell) hfind
    rw [← eq_of_beq hbeq]
    exact (Table.mem_entries_iff h.cellKeys).mp (List.mem_of_find?_eq_some hfind)
  · intro hx
    cases hfind : s.cells.entries.find? fun e => e.2 == cell with
    | none =>
      have hne := List.find?_eq_none.mp hfind (x, cell) ((Table.mem_entries_iff h.cellKeys).mpr hx)
      exact absurd (beq_self_eq_true cell) hne
    | some e =>
      obtain ⟨y, n⟩ := e
      have hbeq : (n == cell) = true :=
        List.find?_some (p := fun e : String × Int => e.2 == cell) hfind
      obtain rfl : n = cell := eq_of_beq hbeq
      have hy : s.cells.get? y = some n :=
        (Table.mem_entries_iff h.cellKeys).mp (List.mem_of_find?_eq_some hfind)
      -- two variables with one cell would not be apart
      by_cases hxy : x = y
      · rw [hxy]
        rfl
      · have := h.apart (.var x) (.var y) _ _ _ _ (fun ho => hxy (Owner.var.inj ho))
          (span?_var hx) (span?_var hy)
        omega

theorem arrays_of_elementAt? {i : Nat}
    (ha : s.elementAt? cell = some (a, elements, i)) : s.arrays.get? a = some elements := by
  unfold elementAt? at ha
  obtain ⟨⟨b, base⟩, -, hb⟩ := List.exists_of_findSome?_eq_some ha
  simp only at hb
  split at hb
  · next els hels =>
    split at hb
    · obtain ⟨rfl, rfl, -⟩ : b = a ∧ els = elements ∧ (cell - base).toNat = i := by simpa using hb
      exact hels
    · exact nomatch hb
  · exact nomatch hb

theorem Sound.elementAt?_eq_some (h : s.Sound) {i : Nat}
    (ha : s.elementAt? cell = some (a, elements, i)) :
    ∃ base, s.bases.get? a = some base ∧ s.arrays.get? a = some elements ∧ base ≤ cell ∧
      cell < base + elements.size ∧ i = (cell - base).toNat := by
  unfold elementAt? at ha
  obtain ⟨⟨b, base⟩, hmem, hb⟩ := List.exists_of_findSome?_eq_some ha
  have hbase : s.bases.get? b = some base := (Table.mem_entries_iff h.baseKeys).mp hmem
  simp only at hb
  split at hb
  · next els hels =>
    split at hb
    · next hrange =>
      obtain ⟨rfl, rfl, rfl⟩ : b = a ∧ els = elements ∧ (cell - base).toNat = i := by simpa using hb
      exact ⟨base, hbase, hels, hrange.1, hrange.2, rfl⟩
    · exact nomatch hb
  · exact nomatch hb

theorem Sound.not_owns_iff (h : s.Sound) :
    ¬ s.Owns cell ↔ s.variableAt? cell = none ∧ s.elementAt? cell = none := by
  constructor
  · intro hno
    constructor
    · rw [Option.eq_none_iff_forall_ne_some]
      intro x hx
      have hcell := h.variableAt?_eq_some.mp hx
      exact hno ⟨.var x, cell, cell + 1, span?_var hcell, Int.le_refl cell, by omega⟩
    · rw [Option.eq_none_iff_forall_ne_some]
      rintro ⟨a, elements, i⟩ ha
      obtain ⟨base, hb, hels, hle, hlt, -⟩ := h.elementAt?_eq_some ha
      exact hno ⟨.array a, base, _, span?_array hb hels, hle, hlt⟩
  · rintro ⟨hvar, helem⟩ ⟨o, first, behind, ho, hle, hlt⟩
    cases o with
    | var x =>
      obtain ⟨n, hn, hspan⟩ := Option.map_eq_some_iff.mp ho
      obtain ⟨rfl, rfl⟩ := Prod.mk.inj hspan
      obtain rfl : n = cell := by omega
      rw [h.variableAt?_eq_some.mpr hn] at hvar
      exact nomatch hvar
    | array a =>
      obtain ⟨base, hb, hrest⟩ := Option.bind_eq_some_iff.mp ho
      obtain ⟨elements, hels, hspan⟩ := Option.map_eq_some_iff.mp hrest
      obtain ⟨rfl, rfl⟩ := Prod.mk.inj hspan
      have hnone :=
        List.findSome?_eq_none_iff.mp helem (a, base) ((Table.mem_entries_iff h.baseKeys).mpr hb)
      simp [hels, hle, hlt] at hnone

end Scope

/-! ### Chains -/

namespace Chain

/-- One scope of a chain changed. -/
inductive Changed : Chain τ → Chain τ → Prop
  | here {s s' : Scope τ} {rest : Chain τ} : s.Step s' → Changed (s :: rest) (s' :: rest)
  | outer {s : Scope τ} {rest rest' : Chain τ} :
      Changed rest rest' → Changed (s :: rest) (s :: rest')

/-- One scope of a chain changed, and nothing was declared. -/
inductive Edited : Chain τ → Chain τ → Prop
  | here {s s' : Scope τ} {rest : Chain τ} : s.Edit s' → Edited (s :: rest) (s' :: rest)
  | outer {s : Scope τ} {rest rest' : Chain τ} : Edited rest rest' → Edited (s :: rest) (s :: rest')

variable {c c' : Chain τ} {v : Int}

theorem Edited.changed (h : Edited c c') : Changed c c' := by
  induction h with
  | here hedit => exact .here hedit.step
  | outer _ ih => exact .outer ih

/-- What edits leave alone in a scope is the same in all scopes of the chain. -/
theorem Edited.map_eq {β : Type} {f : Scope τ → β} (hf : ∀ s s' : Scope τ, s.Edit s' → f s' = f s)
    (h : Edited c c') : c'.map f = c.map f := by
  induction h with
  | here hedit => rw [List.map_cons, List.map_cons, hf _ _ hedit]
  | outer _ ih => rw [List.map_cons, List.map_cons, ih]

def Sound (c : Chain τ) : Prop := ∀ s ∈ c, s.Sound

theorem Changed.sound (hch : Changed c c') : c.Sound → c'.Sound := by
  induction hch with
  | here hstep =>
    intro h
    obtain ⟨hs, hrest⟩ := List.forall_mem_cons.mp h
    exact List.forall_mem_cons.mpr ⟨hstep.sound hs, hrest⟩
  | outer _ ih =>
    intro h
    obtain ⟨hs, hrest⟩ := List.forall_mem_cons.mp h
    exact List.forall_mem_cons.mpr ⟨hs, ih hrest⟩

theorem bind_return_ok {α β : Type} {x : Except ScopeError α} {f : α → β} {b : β}
    (h : (do return f (← x) : Except ScopeError β) = .ok b) : ∃ a, x = .ok a ∧ b = f a := by
  cases x with
  | error e => exact nomatch h
  | ok a => exact ⟨a, rfl, (Except.ok.inj h).symm⟩

theorem changed_assign {x : String} {t : Option τ} (h : c.assign x v t = .ok c') :
    Changed c c' := by
  induction c generalizing c' with
  | nil => exact nomatch h
  | cons s rest ih =>
    unfold assign at h
    split at h
    · next hx =>
      split at h
      · rw [← Except.ok.inj h]
        exact .here (.declare x v _)
      · rw [← Except.ok.inj h]
        exact .here (.assign x v hx)
    · obtain ⟨rest', hrest, rfl⟩ := bind_return_ok h
      exact .outer (ih hrest)

theorem edited_setElement {a : String} {i : Int} (h : c.setElement a i v = .ok c') :
    Edited c c' := by
  induction c generalizing c' with
  | nil => exact nomatch h
  | cons s rest ih =>
    rw [setElement] at h
    split at h
    · next elements ha =>
      obtain ⟨place, -, rfl⟩ := bind_return_ok h
      exact .here (.element a elements place v ha)
    · obtain ⟨rest', hrest, rfl⟩ := bind_return_ok h
      exact .outer (ih hrest)

/-- Asking for an address gives a variable a cell, or changes nothing. -/
theorem edited_address {x : String} {n : Int} (h : c.address x = .ok (n, c')) :
    c' = c ∨ Edited c c' := by
  induction c generalizing c' with
  | nil => exact nomatch h
  | cons s rest ih =>
    rw [address] at h
    split at h
    · next hx =>
      obtain ⟨-, rfl⟩ := Prod.mk.inj (Except.ok.inj h)
      exact .inr (.here (.cell x hx))
    · split at h
      · split at h
        · obtain ⟨-, rfl⟩ := Prod.mk.inj (Except.ok.inj h)
          exact .inl rfl
        · exact nomatch h
      · obtain ⟨⟨m, rest'⟩, hrest, heq⟩ := bind_return_ok h
        obtain ⟨rfl, rfl⟩ := Prod.mk.inj heq
        rcases ih hrest with rfl | hch
        · exact .inl rfl
        · exact .inr (.outer hch)

/-- A store sets a variable or an element, if only variables that are there own cells. -/
theorem edited_store {a : Int}
    (hc : ∀ s ∈ c, ∀ x, s.variableAt? a = some x → (s.vars.get? x).isSome = true)
    (h : c.store a v = .ok c') : Edited c c' := by
  induction c generalizing c' with
  | nil => exact nomatch h
  | cons s rest ih =>
    obtain ⟨hs, hrest⟩ := List.forall_mem_cons.mp hc
    rw [store] at h
    split at h
    · next x hx =>
      rw [← Except.ok.inj h]
      exact .here (.assign x v (hs x hx))
    · split at h
      · next name elements i helem =>
        rw [← Except.ok.inj h]
        exact .here (.element name elements i v (Scope.arrays_of_elementAt? helem))
      · obtain ⟨rest', hstore, rfl⟩ := bind_return_ok h
        exact .outer (ih hrest hstore)

theorem Sound.edited_store (hc : c.Sound) {a : Int} (h : c.store a v = .ok c') : Edited c c' :=
  Chain.edited_store (fun s hs x hx => (hc s hs).named x a ((hc s hs).variableAt?_eq_some.mp hx)) h

end Chain

end WordC
