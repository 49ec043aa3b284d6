import WordC.Proofs.FreeNames
import WordC.Proofs.Running
import WordC.Proofs.Scopes

/-!
# Scopes put in behind the first ones

The scopes of a chain with others spliced in behind the first `k`. A name is looked up in the first
scope that has it, so the scopes put in make no difference to a name that one of the first `k` has
or that none of those put in has. Every way through the scopes is of this kind, except the search
for a cell by its address.

A step ignores scopes if with them it ends as without them, in the same value or signal and in the
same machine, with the scopes put in unchanged. No step closes a scope or takes a name away, so what
the first scopes settle stays settled.
-/

namespace WordC

open Run Step

/-! ### Scopes that have a name or lack it -/

/-- A scope that settles a use. -/
def Scope.Has (s : Scope IntType) : Use → Prop
  | .var x => s.vars.contains x = true ∧ s.types.contains x = true
  | .array a => s.arrays.contains a = true
  | _ => False

/-- A scope that a use passes over. -/
def Scope.Lacks (s : Scope IntType) : Use → Prop
  | .var x => s.vars.get? x = none ∧ s.types.get? x = none
  | .array a => s.arrays.get? a = none
  | .address x => s.vars.get? x = none ∧ s.arrays.get? x = none
  | _ => True

theorem Table.contains_set {α : Type} {t : Table α} {y : String} (x : String) (v : α)
    (h : t.contains y = true) : (t.set x v).contains y = true := by
  unfold contains at h ⊢
  rw [get?_set]
  split
  · rfl
  · exact h

variable {s : Scope IntType} {k : Nat} {B : List Use} {m : Machine}

/-- No change of a scope takes a name away. -/
theorem Scope.Step.has {s' : Scope IntType} (h : s.Step s') {u : Use}
    (hu : s.Has u) : s'.Has u := by
  cases u with
  | var y =>
    cases h with
    | assign x v _ => exact ⟨Table.contains_set x _ hu.1, hu.2⟩
    | declare x v t => exact ⟨Table.contains_set x _ hu.1, Table.contains_set x _ hu.2⟩
    | element a elements i v _ => exact hu
    | array a size first ha =>
      unfold Scope.declareArray at ha
      split at ha
      · contradiction
      · obtain ⟨-, rfl⟩ := Prod.mk.inj (Except.ok.inj ha)
        exact hu
    | cell x _ =>
      unfold Scope.variableCell
      split <;> exact hu
  | array b =>
    cases h with
    | assign x v _ => exact hu
    | declare x v t => exact hu
    | element a elements i v _ => exact Table.contains_set a _ hu
    | array a size first ha =>
      unfold Scope.declareArray at ha
      split at ha
      · contradiction
      · obtain ⟨-, rfl⟩ := Prod.mk.inj (Except.ok.inj ha)
        exact Table.contains_set a _ hu
    | cell x _ =>
      unfold Scope.variableCell
      split <;> exact hu
  | address x => contradiction
  | func f => contradiction
  | pointer => contradiction

theorem Scope.has_declare (s : Scope IntType) (x : String) (v : Int) (t : IntType) :
    (s.declare x v t).Has (.var x) :=
  ⟨Option.isSome_of_eq_some (Table.get?_set_self s.vars x _),
    Option.isSome_of_eq_some (Table.get?_set_self s.types x t)⟩

theorem Scope.has_declareArray {a : String} {size : Int} {declared : Int × Scope IntType}
    (h : s.declareArray a size = .ok declared) : declared.2.Has (.array a) := by
  unfold Scope.declareArray at h
  split at h
  · contradiction
  · obtain rfl := Except.ok.inj h
    exact Option.isSome_of_eq_some (Table.get?_set_self s.arrays a _)

/-- The scope at a place, counted from the innermost. -/
def Chain.at? (scopes : Chain IntType) (i : Nat) : Option (Scope IntType) := scopes[i]?

/-- The scope at a place settles a use. -/
def Chain.HasAt (c : Chain IntType) (i : Nat) (u : Use) : Prop := ∃ s, c.at? i = some s ∧ s.Has u

/-- As many scopes as before, each with the names it had. -/
def Chain.Grown (c c' : Chain IntType) : Prop :=
  c'.length = c.length ∧ ∀ i u, c.HasAt i u → c'.HasAt i u

namespace Chain

variable {c c' : Chain IntType}

theorem Grown.refl (c : Chain IntType) : c.Grown c := ⟨rfl, fun _ _ h => h⟩

theorem Grown.cons {s s' : Scope IntType} (hs : ∀ u, s.Has u → s'.Has u) (h : c.Grown c') :
    Grown (s :: c) (s' :: c') := by
  refine ⟨congrArg (· + 1) h.1, ?_⟩
  intro i u hi
  cases i with
  | zero =>
    obtain ⟨t, ht, hu⟩ := hi
    obtain rfl : s = t := Option.some.inj ht
    exact ⟨s', rfl, hs u hu⟩
  | succ i => exact h.2 i u hi

theorem Grown.tail {s : Scope IntType} (h : Grown (s :: c) c') : c.Grown c'.tail := by
  cases c' with
  | nil => exact absurd h.1 (by simp)
  | cons s' c' => exact ⟨Nat.succ.inj h.1, fun i u hi => h.2 (i + 1) u hi⟩

theorem Changed.grown (h : Changed c c') : c.Grown c' := by
  induction h with
  | here hstep => exact .cons (fun _ => hstep.has) (.refl _)
  | outer _ ih => exact .cons (fun _ hu => hu) ih

/-! ### Scopes spliced into a chain -/

/-- A chain with scopes put in behind its first `k`. -/
def splice (locals : Chain IntType) : (k : Nat) → Chain IntType → Chain IntType
  | 0, c => locals ++ c
  | k + 1, s :: c => s :: splice locals k c
  | _ + 1, [] => locals

/-- Does what can be done at the first scope that answers. -/
def atFirst {α : Type} (act : Scope IntType → Option (Except ScopeError (α × Scope IntType)))
    (missing : ScopeError) : Chain IntType → Except ScopeError (α × Chain IntType)
  | [] => .error missing
  | s :: c =>
    match act s with
    | some done => done.map fun r => (r.1, r.2 :: c)
    | none => (atFirst act missing c).map fun r => (r.1, s :: r.2)

variable {α : Type} {act : Scope IntType → Option (Except ScopeError (α × Scope IntType))}
  {missing : ScopeError}

theorem atFirst_append {locals : Chain IntType} (h : ∀ s ∈ locals, act s = none) :
    atFirst act missing (locals ++ c) = (atFirst act missing c).map
    fun r => (r.1, locals ++ r.2) := by
  induction locals with
  | nil =>
    rw [List.nil_append]
    cases atFirst act missing c <;> rfl
  | cons s locals ih =>
    obtain ⟨hs, hlocals⟩ := List.forall_mem_cons.mp h
    rw [List.cons_append, atFirst, hs, ih hlocals]
    cases atFirst act missing c <;> rfl

/-- Scopes that do not answer make no difference, and neither do scopes behind one that does. -/
theorem atFirst_splice {locals : Chain IntType} {k : Nat} (hk : k ≤ c.length)
    (h : (∃ i < k, ∃ s, c.at? i = some s ∧ act s ≠ none) ∨ ∀ s ∈ locals, act s = none) :
    atFirst act missing (splice locals k c) = (atFirst act missing c).map
    fun r => (r.1, splice locals k r.2) := by
  induction k generalizing c with
  | zero =>
    refine atFirst_append ?_
    rcases h with ⟨i, hi, -⟩ | h
    · exact absurd hi (Nat.not_lt_zero i)
    · exact h
  | succ k ih =>
    cases c with
    | nil => exact absurd hk (by simp)
    | cons s c =>
      rw [splice, atFirst, atFirst]
      cases hs : act s with
      | some done => cases done <;> rfl
      | none =>
        have hrest : (∃ i < k, ∃ s, Chain.at? c i = some s ∧ act s ≠ none) ∨
            ∀ s ∈ locals, act s = none := by
          rcases h with ⟨i, hi, t, ht, hact⟩ | h
          · cases i with
            | zero =>
              obtain rfl : s = t := Option.some.inj ht
              exact absurd hs hact
            | succ i => exact .inl ⟨i, Nat.lt_of_succ_lt_succ hi, t, ht, hact⟩
          · exact .inr h
        dsimp only
        rw [ih (Nat.le_of_succ_le_succ hk) hrest]
        cases atFirst act missing c <;> rfl

/-! ### Every way through the scopes ends at the first that answers -/

theorem get_eq_atFirst (x : String) : c.get x =
    (atFirst (fun s => (s.vars.get? x).map fun v => .ok (v, s)) (.undefinedVariable x) c).map
      Prod.fst := by
  induction c with
  | nil => rfl
  | cons s c ih =>
    rw [get, atFirst]
    cases s.vars.get? x with
    | some v => rfl
    | none =>
      simp only [Option.map_none, ih]
      cases atFirst _ _ c <;> rfl

theorem typeOf?_eq_atFirst (x : String) : c.typeOf? x =
    (atFirst (fun s => (s.types.get? x).map fun t => .ok (t, s))
      (.undefinedVariable x) c).toOption.map Prod.fst := by
  induction c with
  | nil => rfl
  | cons s c ih =>
    rw [typeOf?, atFirst]
    cases s.types.get? x with
    | some v => rfl
    | none =>
      simp only [Option.map_none, ih]
      cases atFirst _ _ c <;> rfl

theorem element_eq_atFirst (a : String) (i : Int) : c.element a i =
    (atFirst (fun s => (s.arrays.get? a).map fun elements => do
      return (Word.wrap (elements.getD (← checkIndex a elements i) 0), s))
      (.undefinedArray a) c).map Prod.fst := by
  induction c with
  | nil => rfl
  | cons s c ih =>
    rw [element, atFirst]
    cases s.arrays.get? a with
    | some elements =>
      simp only [Option.map_some]
      cases checkIndex a elements i <;> rfl
    | none =>
      simp only [Option.map_none, ih]
      cases atFirst _ _ c <;> rfl

theorem setElement_eq_atFirst (a : String) (i v : Int) : c.setElement a i v =
    (atFirst (fun s => (s.arrays.get? a).map fun elements => do
      let place ← checkIndex a elements i
      return ((), { s with arrays := s.arrays.set a (elements.setIfInBounds place (Word.wrap v)) }))
      (.undefinedArray a) c).map
        Prod.snd := by
  induction c with
  | nil => rfl
  | cons s c ih =>
    rw [setElement, atFirst]
    cases s.arrays.get? a with
    | some elements =>
      simp only [Option.map_some]
      cases checkIndex a elements i <;> rfl
    | none =>
      simp only [Option.map_none, ih]
      cases atFirst _ _ c <;> rfl

/-- A variable after an assignment. -/
def assigned (s : Scope IntType) (x : String) (v : Int) : Option IntType → Scope IntType
  | some t => s.declare x v t
  | none => s.setVar x v

theorem assign_eq_atFirst (x : String) (v : Int) (t : Option IntType) :
    c.assign x v t =
      (atFirst (fun s => if s.vars.contains x then some (.ok ((), assigned s x v t)) else none)
        (.undefinedVariable x) c).map Prod.snd := by
  induction c with
  | nil => rfl
  | cons s c ih =>
    unfold assign
    rw [atFirst]
    split
    · cases t <;> rfl
    · simp only [ih]
      cases atFirst _ _ c <;> rfl

/-- The address of a name of a scope. -/
def cellOf (x : String) (s : Scope IntType) : Option (Except ScopeError (Int × Scope IntType)) :=
  if s.vars.contains x then some (.ok (s.variableCell x))
  else if s.arrays.contains x then
    some (match s.bases.get? x with
      | some base => .ok (base, s)
      | none => .error (.noAddress x))
  else none

theorem address_eq_atFirst (x : String) :
    c.address x = atFirst (cellOf x) (.undefinedName x) c := by
  induction c with
  | nil => rfl
  | cons s c ih =>
    rw [address, atFirst, cellOf]
    split
    · rfl
    · split
      · dsimp only
        cases s.bases.get? x <;> rfl
      · simp only [ih]
        cases atFirst (cellOf x) _ c <;> rfl

/-- A use that the first `k` scopes settle, or that the scopes put in behind them lack. -/
def Settles (locals : Chain IntType) (k : Nat) (c : Chain IntType) (u : Use) : Prop :=
  (∃ i < k, c.HasAt i u) ∨ ∀ s ∈ locals, s.Lacks u

variable {locals : Chain IntType} {k : Nat} {x a : String}

/-- Scopes that answer where a use is settled, and do not answer where it is lacking. -/
theorem Settles.answers {u : Use} (h : Settles locals k c u) (hhas : ∀ s, s.Has u → act s ≠ none)
    (hlacks : ∀ s, s.Lacks u → act s = none) :
    (∃ i < k, ∃ s, c.at? i = some s ∧ act s ≠ none) ∨ ∀ s ∈ locals, act s = none := by
  rcases h with ⟨i, hi, s, hs, hu⟩ | h
  · exact .inl ⟨i, hi, s, hs, hhas s hu⟩
  · exact .inr fun s hs => hlacks s (h s hs)

/-- A table that has a name answers for it. -/
theorem map_get?_ne_none {γ δ : Type} {t : Table γ} (h : t.contains x = true) (f : γ → δ) :
    (t.get? x).map f ≠ none :=
  fun hnone => Option.isSome_iff_ne_none.mp h (Option.map_eq_none_iff.mp hnone)

theorem map_get?_eq_none {γ δ : Type} {t : Table γ} (h : t.get? x = none) (f : γ → δ) :
    (t.get? x).map f = none := by
  rw [h]
  rfl

theorem not_contains {γ : Type} {t : Table γ} (h : t.get? x = none) : ¬ t.contains x = true := by
  rw [Table.contains, h]
  exact Bool.false_ne_true

theorem get_splice (hk : k ≤ c.length) (h : Settles locals k c (.var x)) :
    get (splice locals k c) x = get c x := by
  rw [get_eq_atFirst, get_eq_atFirst, atFirst_splice hk]
  · cases atFirst _ _ c <;> rfl
  · exact h.answers (fun s hs => map_get?_ne_none hs.1 _) (fun s hs => map_get?_eq_none hs.1 _)

theorem typeOf?_splice (hk : k ≤ c.length) (h : Settles locals k c (.var x)) :
    typeOf? (splice locals k c) x = typeOf? c x := by
  rw [typeOf?_eq_atFirst, typeOf?_eq_atFirst, atFirst_splice hk]
  · cases atFirst _ _ c <;> rfl
  · exact h.answers (fun s hs => map_get?_ne_none hs.2 _) (fun s hs => map_get?_eq_none hs.2 _)

theorem element_splice (hk : k ≤ c.length) (h : Settles locals k c (.array a)) (i : Int) :
    element (splice locals k c) a i = element c a i := by
  rw [element_eq_atFirst, element_eq_atFirst, atFirst_splice hk]
  · cases atFirst _ _ c <;> rfl
  · exact h.answers (fun s hs => map_get?_ne_none hs _) (fun s hs => map_get?_eq_none hs _)

theorem setElement_splice (hk : k ≤ c.length) (h : Settles locals k c (.array a)) (i v : Int) :
    setElement (splice locals k c) a i v = (setElement c a i v).map (splice locals k) := by
  rw [setElement_eq_atFirst, setElement_eq_atFirst, atFirst_splice hk]
  · cases atFirst _ _ c <;> rfl
  · exact h.answers (fun s hs => map_get?_ne_none hs _) (fun s hs => map_get?_eq_none hs _)

theorem assign_splice (hk : k ≤ c.length) (h : Settles locals k c (.var x))
    (v : Int) (t : Option IntType) :
    assign (splice locals k c) x v t = (assign c x v t).map (splice locals k) := by
  rw [assign_eq_atFirst, assign_eq_atFirst, atFirst_splice hk]
  · cases atFirst _ _ c <;> rfl
  · refine h.answers ?_ ?_
    · intro s hs
      rw [if_pos hs.1]
      exact Option.some_ne_none _
    · intro s hs
      rw [if_neg (not_contains hs.1)]

/-- The address of a name that some of the first scopes have, as a variable or as an array. -/
theorem address_splice (hk : k ≤ c.length) (h : (∃ i < k, c.HasAt i (.var x)) ∨
      (∃ i < k, c.HasAt i (.array x)) ∨ ∀ s ∈ locals, s.Lacks (.address x)) :
    address (splice locals k c) x = (address c x).map fun r => (r.1, splice locals k r.2) := by
  rw [address_eq_atFirst, address_eq_atFirst, atFirst_splice hk]
  have hcell (s : Scope IntType) (hs : s.vars.contains x = true ∨ s.arrays.contains x = true) :
      cellOf x s ≠ none := by
    unfold cellOf
    split
    · exact Option.some_ne_none _
    · next hvars =>
      rw [if_pos (hs.resolve_left hvars)]
      exact Option.some_ne_none _
  rcases h with ⟨i, hi, s, hs, hhas⟩ | ⟨i, hi, s, hs, hhas⟩ | h
  · exact .inl ⟨i, hi, s, hs, hcell s (.inl hhas.1)⟩
  · exact .inl ⟨i, hi, s, hs, hcell s (.inr hhas)⟩
  · refine .inr fun s hs => ?_
    rw [cellOf, if_neg (not_contains (h s hs).1), if_neg (not_contains (h s hs).2)]

end Chain

/-! ### Machines with the scopes of a caller -/

/-- A machine whose scopes have others put in behind the first `k`. -/
def Machine.splice (locals : Chain IntType) (k : Nat) (m : Machine) : Machine :=
  { m with scopes := Chain.splice locals k m.scopes }

/-- The first `k` scopes of a machine settle the uses in `B`. -/
structure Machine.Ready (k : Nat) (B : List Use) (m : Machine) : Prop where
  depth : k ≤ m.scopes.length
  settled : ∀ u ∈ B, ∃ i < k, m.scopes.HasAt i u

/-- No scope of a machine is closed and none loses a name. -/
def Machine.Grown (m m' : Machine) : Prop := m.scopes.Grown m'.scopes

theorem Machine.Grown.refl (m : Machine) : m.Grown m := Chain.Grown.refl m.scopes

theorem Machine.Grown.trans {m₁ m₂ m₃ : Machine} (h₁ : m₁.Grown m₂)
    (h₂ : m₂.Grown m₃) : m₁.Grown m₃ :=
  ⟨h₂.1.trans h₁.1, fun i u h => h₂.2 i u (h₁.2 i u h)⟩

theorem Machine.Ready.grown {m' : Machine} (h : m.Ready k B) (hm : m.Grown m') : m'.Ready k B := by
  refine ⟨hm.1 ▸ h.depth, ?_⟩
  intro u hu
  obtain ⟨i, hi, hhas⟩ := h.settled u hu
  exact ⟨i, hi, hm.2 i u hhas⟩

/-- A scope opened in front. -/
theorem Machine.Ready.inner {B' : List Use} (h : m.Ready k B) (hs : ∀ u ∈ B', s.Has u) :
    ({ m with scopes := s :: m.scopes } : Machine).Ready (k + 1) (B' ++ B) := by
  refine ⟨Nat.succ_le_succ h.depth, ?_⟩
  intro u hu
  rcases List.mem_append.mp hu with hu | hu
  · exact ⟨0, Nat.succ_pos k, s, rfl, hs u hu⟩
  · obtain ⟨i, hi, hhas⟩ := h.settled u hu
    exact ⟨i + 1, Nat.succ_lt_succ hi, hhas⟩

/-- A name more in the innermost scope. -/
theorem Machine.Ready.cons {m' : Machine} (h : m.Ready (k + 1) B) (hm : m.Grown m') {u : Use}
    (hu : m'.scopes.HasAt 0 u) : m'.Ready (k + 1) (u :: B) := by
  have hready := h.grown hm
  exact ⟨hready.depth, List.forall_mem_cons.mpr ⟨⟨0, Nat.succ_pos k, hu⟩, hready.settled⟩⟩

theorem Machine.Ready.exists_scope (h : m.Ready (k + 1) B) :
    ∃ s rest, m.scopes = s :: rest :=
  List.exists_cons_of_length_pos (Nat.lt_of_lt_of_le (Nat.succ_pos k) h.depth)

/-! ### Steps that ignore the scopes put in -/

/-- With scopes put in a step ends as without them and leaves them alone; if it ends in a value, the
first scopes settle the uses in `B`. -/
structure Run.Ignored {α : Type} (step : Run α) (locals : Chain IntType) (k : Nat) (B : List Use)
    (m : Machine) : Prop where
  same : step (m.splice locals k) = ((step m).1, (step m).2.splice locals k)
  grown : m.Grown (step m).2
  settled : ∀ a, (step m).1 = .ok a → (step m).2.Ready k B

/-- A step that ignores scopes wherever the first scopes settle the uses in `B`, and that settles
those in `B'`. -/
def Run.Ignores {α : Type} (step : Run α) (locals : Chain IntType) (k : Nat)
    (B B' : List Use) : Prop :=
  ∀ m, m.Ready k B → step.Ignored locals k B' m

namespace Run

variable {α β : Type} {locals : Chain IntType} {k : Nat} {B B' B₁ : List Use}

theorem Ignored.of_grown {step : Run α} {m : Machine} (hm : m.Ready k B)
    (same : step (m.splice locals k) = ((step m).1, (step m).2.splice locals k))
    (grown : m.Grown (step m).2) : step.Ignored locals k B m :=
  ⟨same, grown, fun _ _ => hm.grown grown⟩

/-- What a step has settled beyond the start may be forgotten. -/
theorem Ignores.forget {step : Run α} (h : step.Ignores locals k B B') :
    step.Ignores locals k B B :=
  fun m hm => .of_grown hm (h m hm).same (h m hm).grown

theorem Ignores.of_nil {step : Run α} (h : step.Ignores locals k [] []) :
    step.Ignores locals k B B := by
  intro m hm
  have hnil := h m ⟨hm.depth, List.forall_mem_nil _⟩
  exact .of_grown hm hnil.same hnil.grown

theorem ignores_pure (a : α) : (pure a : Run α).Ignores locals k B B :=
  fun m hm => .of_grown hm rfl (.refl m)

/-- A step that ends in no value settles whatever one likes. -/
theorem ignores_throw (s : Signal) : (throw s : Run α).Ignores locals k B B' := by
  intro m _
  exact ⟨rfl, .refl m, fun _ h => (by cases h)⟩

theorem ignores_fail (e : RunError) : (fail e : Run α).Ignores locals k B B' :=
  ignores_throw (.failure e)

theorem ignores_fail_bind (e : RunError) (f : α → Run β) :
    (fail e >>= f).Ignores locals k B B' := by
  intro m _
  exact ⟨rfl, .refl m, fun _ h => (by cases h)⟩

theorem Ignores.bind {x : Run α} {f : α → Run β} (hx : x.Ignores locals k B B₁)
    (hf : ∀ a, (f a).Ignores locals k B₁ B') : (x >>= f).Ignores locals k B B' := by
  intro m hm
  obtain ⟨hsame, hgrown, hsettled⟩ := hx m hm
  rcases hxm : x m with ⟨e | a, m'⟩
  · rw [hxm] at hsame hgrown
    refine ⟨?_, ?_, ?_⟩
    · rw [bind_error hsame, bind_error hxm]
    · rw [bind_error hxm]
      exact hgrown
    · rw [bind_error hxm]
      intro b hb
      cases hb
  · rw [hxm] at hsame hgrown hsettled
    obtain ⟨hsame', hgrown', hsettled'⟩ := hf a m' (hsettled a rfl)
    refine ⟨?_, ?_, ?_⟩
    · rw [bind_ok hsame, bind_ok hxm, hsame']
    · rw [bind_ok hxm]
      exact hgrown.trans hgrown'
    · rw [bind_ok hxm]
      exact hsettled'

theorem ignores_reading {f : Chain IntType → Except ScopeError α}
    (h : ∀ m : Machine, m.Ready k B → f (Chain.splice locals k m.scopes) = f m.scopes) :
    (reading f).Ignores locals k B B := by
  intro m hm
  have hread : ∃ r, reading f m = (r, m) ∧
      reading f (m.splice locals k) = (r, m.splice locals k) := by
    rw [reading_apply, reading_apply, Machine.splice, h m hm]
    cases f m.scopes with
    | ok a => exact ⟨_, rfl, rfl⟩
    | error e => exact ⟨_, rfl, rfl⟩
  obtain ⟨r, hr, hr'⟩ := hread
  refine .of_grown hm ?_ ?_
  · rw [hr, hr']
  · rw [hr]
    exact .refl m

theorem ignores_changing {f : Chain IntType → Except ScopeError (Chain IntType)} (h : ∀ m : Machine,
      m.Ready k B → f (Chain.splice locals k m.scopes) = (f m.scopes).map (Chain.splice locals k))
    (hgrown : ∀ c c' : Chain IntType, f c = .ok c' → c.Grown c') :
    (changing f).Ignores locals k B B := by
  intro m hm
  refine .of_grown hm ?_ ?_
  · rw [changing_apply, changing_apply, Machine.splice, h m hm]
    cases f m.scopes <;> rfl
  · rw [changing_apply]
    cases hf : f m.scopes with
    | ok c => exact hgrown m.scopes c hf
    | error e => exact .refl m

/-- A change of the machine around its scopes. -/
theorem ignores_modify {f : Machine → Machine}
    (h : ∀ m, f (m.splice locals k) = (f m).splice locals k)
    (hscopes : ∀ m, (f m).scopes = m.scopes) : (modify f : Run Unit).Ignores locals k B B := by
  intro m hm
  refine .of_grown hm ?_ ?_
  · show (Except.ok (), f (m.splice locals k)) = (Except.ok (), (f m).splice locals k)
    rw [h m]
  · show m.scopes.Grown (f m).scopes
    rw [hscopes m]
    exact .refl m.scopes

/-- A scope of its own for a step, which it has left when it ends. -/
theorem Ignores.inside {s : Scope IntType} (hs : ∀ u ∈ B', s.Has u) {step : Run α}
    (h : step.Ignores locals (k + 1) (B' ++ B) B₁) : (inside s step).Ignores locals k B B := by
  intro m hm
  obtain ⟨hsame, hgrown, -⟩ := h _ (hm.inner hs)
  refine .of_grown hm ?_ hgrown.tail
  unfold Run.inside
  rw [show ({ m.splice locals k with scopes := s :: (m.splice locals k).scopes } : Machine) =
    ({ m with scopes := s :: m.scopes } : Machine).splice locals (k + 1) from rfl, hsame]
  rcases hm' : step { m with scopes := s :: m.scopes } with ⟨r, m'⟩
  rw [hm'] at hgrown
  dsimp only
  rw [Machine.splice, Machine.splice]
  cases hc : m'.scopes with
  | nil =>
    have hlength := hgrown.1
    rw [hc] at hlength
    cases hlength
  | cons s' c => rfl

theorem Ignores.block {step : Run α} (h : step.Ignores locals (k + 1) B B₁) :
    (Run.inside {} step).Ignores locals k B B :=
  Ignores.inside (List.forall_mem_nil _) h

theorem Ignores.attempt {body : Run Unit} (h : body.Ignores locals k B B₁) :
    (attempt body).Ignores locals k B B := by
  intro m hm
  obtain ⟨hsame, hgrown, -⟩ := h m hm
  refine .of_grown hm ?_ ?_
  · unfold Run.attempt
    rw [hsame]
    rcases body m with ⟨e | a, m'⟩
    · cases e <;> rfl
    · rfl
  · rw [attempt_snd]
    exact hgrown

theorem Ignores.answer {body : Run Unit} (h : body.Ignores locals k B B₁) :
    (answer body).Ignores locals k B B := by
  intro m hm
  obtain ⟨hsame, hgrown, -⟩ := h m hm
  refine .of_grown hm ?_ ?_
  · unfold Run.answer
    rw [hsame]
    rcases body m with ⟨e | a, m'⟩
    · cases e <;> rfl
    · rfl
  · rw [answer_snd]
    exact hgrown

theorem Ignores.iterate {round : Run Bool} (h : round.Ignores locals k B B) (fuel : Nat) :
    (iterate round fuel).Ignores locals k B B := by
  induction fuel with
  | zero => exact ignores_throw _
  | succ fuel ih =>
    refine h.bind fun goesOn => ?_
    cases goesOn with
    | true => exact ih
    | false => exact ignores_pure _

end Run

end WordC
