import WordC.Machine.Exec
import WordC.Proofs.StepLaws

/-!
# Laws of the steps of a run

What the smallest steps of a run give and do to the machine.
-/

namespace WordC

namespace Run

open Step

variable {α : Type}

theorem fail_apply (e : RunError) (m : Machine) :
    (fail e : Run α) m = (.error (.failure e), m) := rfl

theorem ofScope_ok (a : α) (m : Machine) : ofScope (.ok a) m = (.ok a, m) := rfl

theorem ofScope_error (e : ScopeError) (m : Machine) :
    (ofScope (.error e) : Run α) m = (.error (.failure (.scope e)), m) := rfl

theorem reading_apply (f : Chain IntType → Except ScopeError α) (m : Machine) :
    reading f m = ofScope (f m.scopes) m := rfl

/-- A change of the scopes that fails leaves the machine as it is. -/
theorem changing_apply (f : Chain IntType → Except ScopeError (Chain IntType)) (m : Machine) :
    changing f m = match f m.scopes with
      | .ok c => (.ok (), { m with scopes := c })
      | .error e => (.error (.failure (.scope e)), m) := by
  unfold changing
  rw [bind_ok (get_apply m)]
  cases f m.scopes with
  | error e => rfl
  | ok c => rfl

theorem typeOf_apply (x : String) (m : Machine) :
    typeOf x m = (.ok ((m.scopes.typeOf? x).getD .uint32), m) := rfl

theorem declare_cons {m : Machine} {s : Scope IntType} {rest : Chain IntType}
    (h : m.scopes = s :: rest) (x : String) (v : Int) (t : IntType) :
    declare x v t m = (.ok (), { m with scopes := s.declare x v t :: rest }) := by
  obtain ⟨scopes, registers, registerNames, devices, asmWarned⟩ := m
  obtain rfl : scopes = s :: rest := h
  rfl

theorem declare_nil {m : Machine} (h : m.scopes = []) (x : String) (v : Int) (t : IntType) :
    declare x v t m = (.ok (), m) := by
  obtain ⟨scopes, registers, registerNames, devices, asmWarned⟩ := m
  obtain rfl : scopes = [] := h
  rfl

/-- An array goes into the innermost scope, if its size allows. -/
theorem declareArray_cons {m : Machine} {s : Scope IntType} {rest : Chain IntType}
    (h : m.scopes = s :: rest) (a : String) (size : Nat) : declareArray a size m =
    changing (fun _ => (s.declareArray a size).map fun declared => declared.2 :: rest) m := by
  unfold declareArray
  rw [changing_apply, changing_apply, h]
  dsimp only
  cases s.declareArray a size <;> rfl

/-- Taking a signal for an answer does not touch the machine. -/
theorem attempt_snd (body : Run Unit) (m : Machine) : (attempt body m).2 = (body m).2 := by
  unfold attempt
  split <;> next hbody => rw [hbody]

theorem answer_snd (body : Run Unit) (m : Machine) : (answer body m).2 = (body m).2 := by
  unfold answer
  split <;> next hbody => rw [hbody]

/-- A name that no register is bound to is read from the scopes. -/
theorem readVariable_of_get {m : Machine} {x : String} {v : Int}
    (hr : m.registerNames.get? x = none) (hv : m.scopes.get x = .ok v) :
    readVariable x m = (.ok ⟨Word.wrap v, (m.scopes.typeOf? x).getD .uint32⟩, m) := by
  have hg : reading (·.get x) m = (.ok v, m) := by rw [reading_apply, hv, ofScope_ok]
  unfold readVariable
  rw [bind_ok (get_apply m)]
  simp only [hr]
  rw [bind_ok hg, bind_ok (typeOf_apply x m), pure_apply]

end Run

end WordC
