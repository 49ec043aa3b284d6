import WordC.Proofs.Encodings
import WordC.Proofs.Ranges
import WordC.Proofs.ScopeShape

/-!
# Counting up and down

Counting a variable up or down adds to what its scope holds. The assignment `x = x + 1` reads `x` as
every expression does, from the register that `x` is bound to if there is one, and writes the
register and the scope. So the two are the same step exactly for the names that no register is bound
to: there the assignment gives the variable the tag that it has already, and a name that is not
declared fails alike. A bound name that is counted keeps the value that expressions see.
-/

namespace WordC

open Run Step

/-! ### Writing back what is there -/

theorem Table.set_of_get? {α : Type} {t : Table α} {key : String} {value : α}
    (h : t.get? key = some value) : t.set key value = t := by
  obtain ⟨es⟩ := t
  refine congrArg Table.mk ?_
  replace h : find? key es = some value := h
  induction es with
  | nil => cases h
  | cons e es ih =>
    obtain ⟨k, v⟩ := e
    rw [find?] at h
    rw [place]
    by_cases hk : k = key
    · rw [if_pos hk] at h ⊢
      rw [Option.some.inj h]
    · rw [if_neg hk] at h ⊢
      rw [ih h]

namespace Chain

variable {c : Chain IntType} {x : String} {w : Int}

/-- A variable that is given its own tag keeps its tag. -/
theorem assign_own_type (hc : c.Sound) (x : String) (v : Int) :
    c.assign x v (some ((c.typeOf? x).getD .uint32)) = c.assign x v none := by
  induction c with
  | nil => rfl
  | cons s rest ih =>
    obtain ⟨hs, hrest⟩ := List.forall_mem_cons.mp hc
    by_cases hx : s.vars.contains x = true
    · obtain ⟨t, ht, htype⟩ := typeOf?_cons_of_contains (c := rest) hs hx
      rw [assign, assign, if_pos hx, if_pos hx, htype, Option.getD_some, Scope.declare,
        Table.set_of_get? ht, Scope.setVar]
    · rw [assign, assign, if_neg hx, if_neg hx, typeOf?_cons_of_not_contains hs hx, ih hrest]

/-- A variable that can be read can be assigned; afterwards it has the new value and its old tag. -/
theorem assign_of_get (h : c.get x = .ok w) (v : Int) : ∃ c', c.assign x v none = .ok c' ∧
    c'.get x = .ok (Word.wrap v) ∧ c'.typeOf? x = c.typeOf? x := by
  induction c with
  | nil => cases h
  | cons s rest ih =>
    by_cases hx : s.vars.contains x = true
    · refine ⟨s.setVar x v :: rest, by rw [assign, if_pos hx], ?_, rfl⟩
      rw [get, Scope.setVar, Table.get?_set_self]
    · have hnone : s.vars.get? x = none := Option.not_isSome_iff_eq_none.mp hx
      rw [get, hnone] at h
      obtain ⟨rest', hassign, hget, htype⟩ := ih h
      refine ⟨s :: rest', by rw [assign, if_neg hx, hassign]; rfl, by rw [get, hnone]; exact hget,
        ?_⟩
      rw [typeOf?, typeOf?, htype]

end Chain

/-! ### One more or one less -/

/-- An operator that with the operand `1` adds `amount`. -/
inductive Counts : BinOp → Int → Prop where
  | up : Counts .add 1
  | down : Counts .sub (-1)

namespace Counts

variable {op : BinOp} {amount : Int}

theorem result?_eq (h : Counts op amount) (v : Int) : op.result? v 1 = some (v + amount) := by
  cases h with
  | up => rfl
  | down => rfl

/-- Up to the range of words the type of the operand does not matter. -/
theorem apply_eq (h : Counts op amount) (v : Value) :
    ∃ w, op.apply v ⟨1, .uint32⟩ = .ok w ∧ Word.wrap w.value = Word.wrap (v.value + amount) := by
  have hright : BinOp.operand ⟨1, .uint32⟩ v.type = 1 := by cases v.type <;> rfl
  have hleft : BinOp.operand v .uint32 = v.value := if_neg fun h => IntType.noConfusion h.2
  refine ⟨_, by rw [BinOp.apply, hright, hleft, h.result?_eq], ?_⟩
  cases op.resultType v.type .uint32 with
  | uint32 => exact Word.wrap_wrap _
  | int32 => exact Word.wrap_signed _

theorem wrap_ne (h : Counts op amount) (v : Int) : Word.wrap (v + amount) ≠ v := by
  unfold Word.wrap Word.modulus
  cases h with
  | up => omega
  | down => omega

end Counts

theorem Word.wrap_add_wrap (v w : Int) : wrap (wrap v + w) = wrap (v + w) := by
  unfold wrap
  exact Int.emod_add_emod v modulus w

/-! ### Names with and without a register -/

variable {calls : Calls} {m : Machine} {x : String} {v : Int} {amount : Int} {op : BinOp}
  {r : Fin 32} {e : ScopeError}

namespace Run

theorem bump_of_get (h : m.scopes.get x = .ok v) :
    bump x amount m = changing (·.assign x (v + amount) none) m := by
  have hread : reading (·.get x) m = (.ok v, m) := by rw [reading_apply, h, ofScope_ok]
  rw [bump, bind_ok hread]

theorem bump_of_get_error (h : m.scopes.get x = .error e) :
    bump x amount m = (.error (.failure (.scope e)), m) := by
  have hread : reading (·.get x) m = (.error (.failure (.scope e)), m) := by
    rw [reading_apply, h, ofScope_error]
  rw [bump, bind_error hread]

theorem readVariable_of_get_error (hr : m.registerNames.get? x = none)
    (h : m.scopes.get x = .error e) : readVariable x m = (.error (.failure (.scope e)), m) := by
  have hread : reading (·.get x) m = (.error (.failure (.scope e)), m) := by
    rw [reading_apply, h, ofScope_error]
  unfold readVariable
  rw [bind_ok (get_apply m)]
  simp only [hr]
  rw [bind_error hread]

/-- A name that a register is bound to has the register's value, declared or not. -/
theorem readVariable_of_register (hr : m.registerNames.get? x = some r) : readVariable x m =
    (.ok ⟨Word.wrap (m.registers.get r), (m.scopes.typeOf? x).getD .uint32⟩, m) := by
  unfold readVariable
  rw [bind_ok (get_apply m)]
  simp only [hr]
  rw [bind_ok (pure_apply _ m), bind_ok (typeOf_apply x m), pure_apply]

end Run

theorem Expr.eval_counted (calls : Calls) (h : Counts op amount) {old : Value}
    (hx : readVariable x m = (.ok old, m)) :
    ∃ w : Value, (Expr.binary op (.name x) (.literal 1)).eval calls m = (.ok w, m) ∧
      Word.wrap w.value = Word.wrap (old.value + amount) := by
  have hleft : (Expr.name x).eval calls m = (.ok old, m) := by rw [eval, hx]
  have hright : (Expr.literal 1).eval calls m = (.ok ⟨1, .uint32⟩, m) := by rw [eval]; rfl
  obtain ⟨w, happly, hw⟩ := h.apply_eq old
  exact ⟨w, by rw [eval_binary hleft hright, happly]; rfl, hw⟩

namespace Run

theorem assign_of_unbound {a : Expr} {w : Value} (ha : a.eval calls m = (.ok w, m))
    (hr : m.registerNames.get? x = none) : assign calls x a m =
    changing (·.assign x w.value (some ((m.scopes.typeOf? x).getD .uint32))) m := by
  rw [assign, bind_ok ha, bind_ok (typeOf_apply x m), bind_ok (get_apply m)]
  simp only [hr]

/-- An assignment to a bound name writes the register, whether the name is declared or not. -/
theorem assign_of_bound {a : Expr} {w : Value} (ha : a.eval calls m = (.ok w, m))
    (hr : m.registerNames.get? x = some r) :
    assign calls x a m = if r.val = 31 then (.error (.failure .readOnlyRegister), m)
      else changing (·.assign x w.value (some ((m.scopes.typeOf? x).getD .uint32)))
        { m with registers := m.registers.set r.val (Word.wrap w.value) r.isLt } := by
  rw [assign, bind_ok ha, bind_ok (typeOf_apply x m), bind_ok (get_apply m)]
  simp only [hr]
  by_cases h31 : r.val = 31
  · rw [if_pos h31, if_pos h31]
    rfl
  · rw [if_neg h31, if_neg h31]
    rfl

end Run

/-- A chain is assigned the same word whichever number stands for it. -/
theorem Chain.assign_congr {c : Chain IntType} {v w : Int} (h : Word.wrap v = Word.wrap w) :
    c.assign x v none = c.assign x w none := by
  induction c with
  | nil => rfl
  | cons s rest ih => rw [assign, assign, Scope.setVar, Scope.setVar, h, ih]

/-- For a name without a register, counting is the assignment. -/
theorem bump_eq_counted (hm : m.Sound) (h : Counts op amount) (hr : m.registerNames.get? x = none) :
    bump x amount m = Run.assign calls x (.binary op (.name x) (.literal 1)) m := by
  cases hget : m.scopes.get x with
  | error e =>
    have hname : (Expr.name x).eval calls m = (.error (.failure (.scope e)), m) := by
      rw [Expr.eval, readVariable_of_get_error hr hget]
    have hsum : (Expr.binary op (.name x) (.literal 1)).eval calls m =
        (.error (.failure (.scope e)), m) := by
      rw [Expr.eval, bind_error hname]
    rw [bump_of_get_error hget, Run.assign, bind_error hsum]
  | ok v =>
    obtain ⟨w, hw, hvalue⟩ := Expr.eval_counted calls h (readVariable_of_get hr hget)
    have hword : Word.wrap (v + amount) = Word.wrap w.value := by rw [hvalue, Word.wrap_add_wrap]
    rw [bump_of_get hget, assign_of_unbound hw hr]
    simp only [changing_apply, Chain.assign_own_type hm.scopes, Chain.assign_congr hword]

theorem bump_fst_ne_readOnly (m : Machine) (x : String) (amount : Int) :
    (bump x amount m).1 ≠ .error (.failure .readOnlyRegister) := by
  intro h
  cases hget : m.scopes.get x with
  | error e =>
    rw [bump_of_get_error hget] at h
    cases h
  | ok v =>
    obtain ⟨c, hassign, -⟩ := Chain.assign_of_get hget (v + amount)
    rw [bump_of_get hget, changing_apply, hassign] at h
    cases h

theorem changing_registers (f : Chain IntType → Except ScopeError (Chain IntType)) (m : Machine) :
    (changing f m).2.registers = m.registers := by
  rw [changing_apply]
  cases f m.scopes <;> rfl

theorem changing_registerNames (f : Chain IntType → Except ScopeError (Chain IntType))
    (m : Machine) : (changing f m).2.registerNames = m.registerNames := by
  rw [changing_apply]
  cases f m.scopes <;> rfl

theorem bump_registers (m : Machine) (x : String) (amount : Int) :
    (bump x amount m).2.registers = m.registers := by
  cases hget : m.scopes.get x with
  | error e => rw [bump_of_get_error hget]
  | ok v => rw [bump_of_get hget, changing_registers]

theorem bump_registerNames (m : Machine) (x : String) (amount : Int) :
    (bump x amount m).2.registerNames = m.registerNames := by
  cases hget : m.scopes.get x with
  | error e => rw [bump_of_get_error hget]
  | ok v => rw [bump_of_get hget, changing_registerNames]

/-- For a name with a register, counting is never the assignment: register 31 refuses the
assignment, and every other register changes. -/
theorem bump_ne_counted (h : Counts op amount) (hr : m.registerNames.get? x = some r) :
    bump x amount m ≠ Run.assign calls x (.binary op (.name x) (.literal 1)) m := by
  intro heq
  obtain ⟨w, hw, hvalue⟩ := Expr.eval_counted calls h (readVariable_of_register hr)
  rw [assign_of_bound hw hr] at heq
  by_cases h31 : r.val = 31
  · rw [if_pos h31] at heq
    exact bump_fst_ne_readOnly m x amount (congrArg Prod.fst heq)
  · rw [if_neg h31] at heq
    have hregs := congrArg (fun result => result.2.registers.get r) heq
    simp only [bump_registers, changing_registers] at hregs
    have hself : (m.registers.set r.val (Word.wrap w.value) r.isLt).get r = Word.wrap w.value :=
      Vector.getElem_set_self r.isLt
    rw [hself, hvalue, Word.wrap_add_wrap] at hregs
    exact h.wrap_ne _ hregs.symm

theorem bump_eq_counted_iff (hm : m.Sound) (h : Counts op amount) : bump x amount m =
    Run.assign calls x (.binary op (.name x) (.literal 1)) m ↔ m.registerNames.get? x = none := by
  cases hr : m.registerNames.get? x with
  | none => exact ⟨fun _ => rfl, fun _ => bump_eq_counted hm h hr⟩
  | some r => exact ⟨fun heq => absurd heq (bump_ne_counted h hr), fun hnone => by cases hnone⟩

/-! ### The value afterwards -/

theorem eval_after_bump (hr : m.registerNames.get? x = none) {old : Value}
    (hold : (Expr.name x).eval calls m = (.ok old, m)) : ∃ m', bump x amount m = (.ok (), m') ∧
      (Expr.name x).eval calls m' = (.ok ⟨Word.wrap (old.value + amount), old.type⟩, m') := by
  rw [Expr.eval] at hold
  cases hget : m.scopes.get x with
  | error e =>
    rw [readVariable_of_get_error hr hget] at hold
    cases hold
  | ok v =>
    rw [readVariable_of_get hr hget] at hold
    obtain rfl := Except.ok.inj (congrArg Prod.fst hold)
    obtain ⟨c, hassign, hnew, htype⟩ := Chain.assign_of_get hget (v + amount)
    refine ⟨{ m with scopes := c }, by rw [bump_of_get hget, changing_apply, hassign], ?_⟩
    have hread := readVariable_of_get (m := { m with scopes := c }) hr hnew
    rw [Expr.eval, hread, htype, Word.wrap_wrap, Word.wrap_add_wrap]

theorem bump_typeOf? (m : Machine) (x : String) (amount : Int) :
    (bump x amount m).2.scopes.typeOf? x = m.scopes.typeOf? x := by
  cases hget : m.scopes.get x with
  | error e => rw [bump_of_get_error hget]
  | ok v =>
    obtain ⟨c, hassign, -, htype⟩ := Chain.assign_of_get hget (v + amount)
    rw [bump_of_get hget, changing_apply, hassign]
    exact htype

theorem eval_after_bump_bound (hr : m.registerNames.get? x = some r) :
    ((Expr.name x).eval calls (bump x amount m).2).1 = ((Expr.name x).eval calls m).1 := by
  have hr' : (bump x amount m).2.registerNames.get? x = some r := by rw [bump_registerNames, hr]
  rw [Expr.eval, readVariable_of_register hr, readVariable_of_register hr',
    bump_registers, bump_typeOf?]

/-! ### Counting and assigning -/

/-- In every state that a run passes through, and for any name: counting up or down is the
assignment of the sum or the difference, in outcome, scopes, tags and registers, if and only if no
register is bound to the name. Then a name that has a value has the next or the last word
afterwards, with its type. A name that a register is bound to has its old value afterwards. -/
theorem counting_eq_assigning_iff (p : Program) (m : Machine) (h : m.Reached p) (calls : Calls)
    (fuel : Nat) (x : String) (before : Bool) : ((Stmt.increment x before).exec calls fuel m =
        (Stmt.assign x (.binary .add (.name x) (.literal 1))).exec calls fuel m ↔
        m.registerNames.get? x = none) ∧
      ((Stmt.decrement x before).exec calls fuel m =
        (Stmt.assign x (.binary .sub (.name x) (.literal 1))).exec calls fuel m ↔
        m.registerNames.get? x = none) ∧
      (m.registerNames.get? x = none → ∀ old, (Expr.name x).eval calls m = (.ok old, m) →
        (∃ m', (Stmt.increment x before).exec calls fuel m = (.ok (), m') ∧
          (Expr.name x).eval calls m' = (.ok ⟨Word.wrap (old.value + 1), old.type⟩, m')) ∧
        ∃ m', (Stmt.decrement x before).exec calls fuel m = (.ok (), m') ∧
          (Expr.name x).eval calls m' = (.ok ⟨Word.wrap (old.value - 1), old.type⟩, m')) ∧
      ∀ r, m.registerNames.get? x = some r →
      ∀ s ∈ [Stmt.increment x before, Stmt.decrement x before],
        ((Expr.name x).eval calls (s.exec calls fuel m).2).1 = ((Expr.name x).eval calls m).1 := by
  have hup : (Stmt.increment x before).exec calls fuel m = bump x 1 m := by rw [Stmt.exec]
  have hdown : (Stmt.decrement x before).exec calls fuel m = bump x (-1) m := by rw [Stmt.exec]
  refine ⟨?_, ?_, fun hr old hold => ⟨?_, ?_⟩, fun r hr s hs => ?_⟩
  · rw [hup, Stmt.exec]
    exact bump_eq_counted_iff h.sound .up
  · rw [hdown, Stmt.exec]
    exact bump_eq_counted_iff h.sound .down
  · rw [hup]
    exact eval_after_bump hr hold
  · rw [hdown]
    exact eval_after_bump hr hold
  · obtain rfl | rfl := by simpa using hs
    · rw [hup]
      exact eval_after_bump_bound hr
    · rw [hdown]
      exact eval_after_bump_bound hr

/-- Beside a register variable, an ordinary variable is counted as it is assigned, from the largest
word back to zero. -/
theorem counting_beside_register :
    let calls := Program.calls ⟨[], []⟩ 0
    let bound :=
      ((Stmt.decl (.var ⟨"r5", some (.literal 5), .uint32, some 5, false⟩)).exec calls 0 {}).2
    let m := ((Stmt.decl (.var ⟨"x", some (.unary .negate (.literal 1)), .int32, none, false⟩)).exec
      calls 0 bound).2
    m.Reached ⟨[], []⟩ ∧ m.registerNames.get? "x" = none ∧ m.registerNames.get? "r5" = some 5 ∧
    (Stmt.increment "x" true).exec calls 0 m =
      (Stmt.assign "x" (.binary .add (.name "x") (.literal 1))).exec calls 0 m ∧
    (∃ m', (Stmt.increment "x" true).exec calls 0 m = (.ok (), m') ∧
      (Expr.name "x").eval calls m' = (.ok ⟨0, .int32⟩, m')) ∧
    (Stmt.decrement "r5" true).exec calls 0 m ≠
    (Stmt.assign "r5" (.binary .sub (.name "r5") (.literal 1))).exec calls 0 m := by
  intro calls bound m
  have hm : m.Reached ⟨[], []⟩ := .exec 0 0 _ (.exec 0 0 _ .start)
  have hx : m.registerNames.get? "x" = none := rfl
  have hr : m.registerNames.get? "r5" = some 5 := rfl
  have hold : (Expr.name "x").eval calls m = (.ok ⟨4294967295, .int32⟩, m) := rfl
  have hcount := counting_eq_assigning_iff _ m hm calls 0 "x" true
  refine ⟨hm, hx, hr, hcount.1.mpr hx, (hcount.2.2.1 hx _ hold).1, fun heq => ?_⟩
  have hnone := (counting_eq_assigning_iff _ m hm calls 0 "r5" true).2.1.mp heq
  rw [hr] at hnone
  cases hnone

/-- A main function that declares a register variable of value five, makes one step and returns the
variable. -/
def stepping (step : Stmt) : Program where
  functions :=
    [⟨"main", [], [.decl (.var ⟨"r5", some (.literal 5), .uint32, some ⟨5, by decide⟩, false⟩),
    step, .ret (some (.name "r5"))], false⟩]

/-- `r5++` leaves five, and `r5 = r5 + 1` makes six. -/
theorem register_not_counted :
    ((stepping (.increment "r5" false)).run 1 {}).1 = .ok 5 ∧
    ((stepping (.assign "r5" (.binary .add (.name "r5") (.literal 1)))).run 1 {}).1 = .ok 6 :=
  ⟨rfl, rfl⟩

end WordC
