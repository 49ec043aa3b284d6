import WordC.Proofs.RunRelation
import WordC.Proofs.Scopes

/-!
# Values of a run are words

Variables, array elements and registers hold numbers between `0` and `2 ^ 32` throughout a run, and
the names that have a tag are those that have a value. Every write reduces its number first, so this
is kept by each small change of the machine; the one that needs more is a store through a pointer,
which could give a value to a name without a tag if some cell belonged to no variable. So what is
carried along is that the scopes are sound.
-/

namespace WordC

open Run Step

/-! ### Sound machines -/

structure Machine.Sound (m : Machine) : Prop where
  scopes : Chain.Sound m.scopes
  register : ∀ r : Fin 32, Word.wrap (m.registers.get r) = m.registers.get r

theorem Machine.sound_initial : ({} : Machine).Sound where
  scopes := List.forall_mem_singleton.mpr Scope.sound_empty
  register := by decide

theorem Scope.Opened.sound {s : Scope IntType} (h : s.Opened) : s.Sound := by
  obtain ⟨bindings, rfl⟩ := h
  exact List.foldlRecOn bindings _ Scope.sound_empty fun t ht b _ => ht.declare b.1 b.2 .uint32

/-- Sound scopes in place of the old ones. -/
theorem Machine.Sound.withScopes {m : Machine} (h : m.Sound) {c : Chain IntType} (hc : c.Sound) :
    ({ m with scopes := c } : Machine).Sound := ⟨hc, h.register⟩

theorem Machine.Sound.declare {m : Machine} (h : m.Sound) (x : String) (v : Int) (t : IntType) :
    (Run.declare x v t m).2.Sound := by
  refine h.withScopes ?_
  have hscopes := h.scopes
  cases hm : m.scopes with
  | nil => exact List.forall_mem_nil _
  | cons s rest =>
    rw [hm] at hscopes
    exact (Chain.Changed.here (.declare x v t)).sound hscopes

theorem Machine.Sound.declareArray {m : Machine} (h : m.Sound) (a : String) (size : Nat) :
    (Run.declareArray a size m).2.Sound := by
  unfold Run.declareArray
  rw [changing_apply]
  have hscopes := h.scopes
  cases hm : m.scopes with
  | nil => exact h.withScopes (List.forall_mem_nil _)
  | cons s rest =>
    rw [hm] at hscopes
    dsimp only
    cases ha : s.declareArray a size with
    | error e => exact h
    | ok declared =>
      exact h.withScopes ((Chain.Changed.here (.array a size declared.1 ha)).sound hscopes)

theorem Machine.Sound.setRegister {m : Machine} (h : m.Sound) (r : Fin 32)
    (v : Int) (names : Table (Fin 32)) :
    ({ m with registers := m.registers.set r.val (Word.wrap v) r.isLt, registerNames := names } :
      Machine).Sound := by
  refine ⟨h.scopes, ?_⟩
  intro i
  show Word.wrap (m.registers.set r.val (Word.wrap v) r.isLt)[i.val] =
    (m.registers.set r.val (Word.wrap v) r.isLt)[i.val]
  rw [Vector.getElem_set]
  split
  · exact Word.wrap_wrap v
  · exact h.register i

/-- Keeping a machine sound is a relation of runs. -/
def soundKept : RunRelation where
  expr m m' := m.Sound → m'.Sound
  stmt m m' := m.Sound → m'.Sound
  expr_refl := fun _ h => h
  expr_trans := fun h₁ h₂ h => h₂ (h₁ h)
  stmt_trans := fun h₁ h₂ h => h₂ (h₁ h)
  stmt_of_expr := fun h => h
  address := by
    intro m x n c haddress h
    rcases Chain.edited_address haddress with rfl | hch
    · exact h
    · exact h.withScopes (hch.changed.sound h.scopes)
  devices := fun _ _ h => ⟨h.scopes, h.register⟩
  declare := fun _ x v t h => h.declare x v t
  declareArray := fun _ a size h => h.declareArray a size
  registers := fun _ r v names h => h.setRegister r v names
  assign := fun _ hassign h => h.withScopes ((Chain.changed_assign hassign).sound h.scopes)
  setElement := fun hset h => h.withScopes ((Chain.edited_setElement hset).changed.sound h.scopes)
  store := fun hstore h => h.withScopes ((h.scopes.edited_store hstore).changed.sound h.scopes)
  warned := fun _ h => ⟨h.scopes, h.register⟩
  inside := by
    intro m m' s hs hstep h
    have hinner : m'.Sound := hstep (h.withScopes (List.forall_mem_cons.mpr ⟨hs.sound, h.scopes⟩))
    exact hinner.withScopes fun t ht => hinner.scopes t (List.mem_of_mem_tail ht)

/-! ### What a call answers -/

/-- A number that fits a word. -/
def IsWord (v : Int) : Prop := 0 ≤ v ∧ v < Word.modulus

theorem isWord_wrap (v : Int) : IsWord (Word.wrap v) := ⟨Word.wrap_nonneg v, Word.wrap_lt v⟩

theorem isWord_of_wrap {v : Int} (h : Word.wrap v = v) : IsWord v := h ▸ isWord_wrap v

/-- A step that ends in a value ends in one of a kind. -/
def Run.Gives {α : Type} (step : Run α) (Q : α → Prop) : Prop := ∀ m v, (step m).1 = .ok v → Q v

namespace Run

variable {α β : Type} {Q : β → Prop}

theorem gives_fail (e : RunError) : (fail e : Run β).Gives Q := fun _ _ h => nomatch h

theorem gives_throw (s : Signal) : (throw s : Run β).Gives Q := fun _ _ h => nomatch h

theorem gives_bind (x : Run α) {f : α → Run β} (hf : ∀ a, (f a).Gives Q) : (x >>= f).Gives Q := by
  intro m v h
  rw [bind_apply] at h
  rcases hx : x m with ⟨e | a, m'⟩
  · rw [hx] at h
    exact nomatch h
  · rw [hx] at h
    exact hf a m' v h

theorem gives_inside (s : Scope IntType) {step : Run β} (h : step.Gives Q) :
    (inside s step).Gives Q :=
  fun m v hv => h { m with scopes := s :: m.scopes } v hv

theorem gives_answer (body : Run Unit) : (answer body).Gives IsWord := by
  intro m v h
  unfold answer at h
  split at h
  · rw [← Except.ok.inj h]
    exact ⟨by decide, by decide⟩
  · rw [← Except.ok.inj h]
    exact isWord_wrap _
  · exact nomatch h

end Run

theorem Func.run_gives (f : Func) (calls : Calls) (fuel : Nat) (args : List Int) :
    (f.run calls fuel args).Gives IsWord := by
  unfold Func.run
  dsimp only
  split
  · exact gives_bind _ fun _ => gives_inside _ (gives_answer _)
  · exact gives_inside _ (gives_answer _)

theorem Program.invoke_gives (p : Program) (fuel : Nat) (f : Func) (args : List Int) :
    ((p.calls fuel).invoke f args).Gives IsWord := by
  cases fuel with
  | zero => exact gives_throw _
  | succ fuel => exact f.run_gives _ fuel args

theorem Program.run_gives (p : Program) (fuel : Nat) : (p.run fuel).Gives IsWord := by
  refine gives_bind _ fun _ => ?_
  split
  · exact gives_fail _
  · dsimp only
    split
    · exact gives_bind _ fun _ => p.invoke_gives fuel _ _
    · exact p.invoke_gives fuel _ _

/-! ### Ranges -/

/-- Every value that can be read is a word, there are thirty-two registers, and the names with a tag
are those with a value. -/
structure Machine.Ranged (m : Machine) : Prop where
  variable_word : ∀ s ∈ m.scopes, ∀ x v, s.vars.get? x = some v → IsWord v
  element_word : ∀ s ∈ m.scopes, ∀ a elements, s.arrays.get? a = some elements →
    ∀ v ∈ elements, IsWord v
  register_word : ∀ v ∈ m.registers.toArray, IsWord v
  register_count : m.registers.toArray.size = 32
  tagged : ∀ s ∈ m.scopes, ∀ x, (s.types.get? x).isSome = (s.vars.get? x).isSome
  tag_text : ∀ s ∈ m.scopes, ∀ x t, s.types.get? x = some t → t.text = "uint32" ∨ t.text = "int32"

theorem Machine.Sound.ranged {m : Machine} (h : m.Sound) : m.Ranged where
  variable_word := fun s hs x v hx => isWord_of_wrap ((h.scopes s hs).word x v hx)
  element_word := fun s hs a elements ha v hv =>
    isWord_of_wrap ((h.scopes s hs).element a elements ha v hv)
  register_word := by
    intro v hv
    obtain ⟨i, hi, rfl⟩ := Array.getElem_of_mem hv
    have hi' : i < 32 := by rwa [m.registers.size_toArray] at hi
    exact isWord_of_wrap (h.register ⟨i, hi'⟩)
  register_count := m.registers.size_toArray
  tagged := fun s hs => (h.scopes s hs).tagged
  tag_text := by
    intro s _ x t _
    cases t with
    | uint32 => exact .inl rfl
    | int32 => exact .inr rfl

/-- A step keeps a machine sound, however it ends. -/
def Run.KeepsSound {α : Type} (step : Run α) : Prop := ∀ m, m.Sound → (step m).2.Sound

/-- A fresh machine is sound, a sound machine has its values in range, every way of evaluating and
running keeps a machine sound whether it ends in a value or in a signal, and so a run from a fresh
machine ends in range and answers a word. -/
theorem run_values_in_range :
    ({} : Machine).Sound ∧ (∀ m : Machine, m.Sound → m.Ranged) ∧
    (∀ (p : Program) (fuel rounds : Nat),
      (∀ e : Expr, (e.eval (p.calls fuel)).KeepsSound) ∧
      (∀ s : Stmt, (s.exec (p.calls fuel) rounds).KeepsSound) ∧
      (∀ d : Decl, (Run.global (p.calls fuel) d).KeepsSound) ∧
      (∀ f args, ((p.calls fuel).invoke f args).KeepsSound) ∧
      ∀ name args, (deviceCall name args).KeepsSound) ∧
    ∀ (p : Program) (fuel : Nat), (p.run fuel {}).2.Ranged ∧
    ∀ v, (p.run fuel {}).1 = .ok v → IsWord v := by
  refine ⟨Machine.sound_initial, fun m h => h.ranged, ?_, ?_⟩
  · intro p fuel rounds
    have hcalls := soundKept.calls_careful p fuel
    refine ⟨?_, ?_, ?_, hcalls, ?_⟩
    · exact fun e => soundKept.eval_expr hcalls e
    · exact fun s => soundKept.exec_stmt hcalls rounds s
    · exact fun d => soundKept.global_stmt hcalls d
    · exact fun name args => soundKept.deviceCall_expr name args
  · intro p fuel
    refine ⟨(soundKept.run_stmt p fuel {} Machine.sound_initial).ranged, ?_⟩
    exact p.run_gives fuel {}

end WordC
