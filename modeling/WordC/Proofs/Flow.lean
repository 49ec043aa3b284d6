import WordC.Machine.Exec
import WordC.Proofs.StepLaws
import WordC.Proofs.Trees

/-!
# The flow of control

What a statement does to the flow of control is told apart from what it does to the machine:
conditions and the statements that hold no others are actions of unknown effect, and the rest says
in which order they come. `Stmt.exec_eq_flow` says that running a statement is its flow over the
actions of a run. Over the actions that only note that they were performed, and take the answers of
conditions from a given sequence, the flow is the sequence of what can be seen of a run.
-/

namespace WordC

/-- A step of a flow. -/
abbrev Control (σ α : Type) := ExceptT Signal (StateM σ) α

namespace Control

variable {σ : Type}

/-- Performs the body of a loop: whether the loop goes on. -/
def attempt (body : Control σ Unit) : Control σ Bool := fun s =>
  match body s with
  | (.ok (), s) => (.ok true, s)
  | (.error .continueLoop, s) => (.ok true, s)
  | (.error .breakLoop, s) => (.ok false, s)
  | (.error signal, s) => (.error signal, s)

/-- Repeats a round as long as it answers yes. -/
def iterate (round : Control σ Bool) : (fuel : Nat) → Control σ Unit
  | 0 => throw .outOfFuel
  | fuel + 1 => do
    if (← round) then iterate round fuel else return ()

theorem attempt_eq (body : Run Unit) : Run.attempt body = Control.attempt body := by
  funext m
  unfold Run.attempt Control.attempt
  rcases body m with ⟨_ | _, m'⟩
  · rename_i signal
    cases signal <;> rfl
  · rfl

theorem iterate_eq (round : Run Bool) (fuel : Nat) :
    Run.iterate round fuel = Control.iterate round fuel := by
  induction fuel with
  | zero => rfl
  | succ n ih =>
    rw [Run.iterate, Control.iterate, ih]

end Control

/-- What a flow is made of. -/
structure Actions (σ : Type) where
  /-- A statement that holds no others. -/
  act : Stmt → Control σ Unit
  test : Expr → Control σ Bool
  /-- What a block or a `for` does around its parts. -/
  inside : Control σ Unit → Control σ Unit

namespace Actions

variable {σ : Type}

def actIf (A : Actions σ) : Option Stmt → Control σ Unit
  | some s => A.act s
  | none => return ()

/-- A condition that is not there holds. -/
def testIf (A : Actions σ) : Option Expr → Control σ Bool
  | some c => A.test c
  | none => return true

end Actions

namespace Stmt

variable {σ : Type}

mutual

def flow (A : Actions σ) (fuel : Nat) : Stmt → Control σ Unit
  | ifThen c s => do
    if (← A.test c) then flow A fuel s else return ()
  | ifElse c s t => do
    if (← A.test c) then flow A fuel s else flow A fuel t
  | whileLoop c s =>
    Control.iterate (do
      if (← A.test c) then Control.attempt (flow A fuel s) else return false) fuel
  | doWhile s c =>
    Control.iterate (do
      if (← Control.attempt (flow A fuel s)) then A.test c else return false) fuel
  | forLoop init c step s =>
    A.inside do
      A.actIf (init.map ForInit.toStmt)
      Control.iterate (do
        if (← A.testIf c) then
          if (← Control.attempt (flow A fuel s)) then do
            A.actIf (step.map ForStep.toStmt)
            return true
          else return false
        else return false) fuel
  | block ss => A.inside (flowAll A fuel ss)
  | breakLoop => throw .breakLoop
  | continueLoop => throw .continueLoop
  | decl d => A.act (decl d)
  | assign x e => A.act (assign x e)
  | assignIndex a i e => A.act (assignIndex a i e)
  | assignDeref p e => A.act (assignDeref p e)
  | ret value => A.act (ret value)
  | call e => A.act (call e)
  | increment x before => A.act (increment x before)
  | decrement x before => A.act (decrement x before)
  | asm text => A.act (asm text)
  | hole => A.act hole

def flowAll (A : Actions σ) (fuel : Nat) : List Stmt → Control σ Unit
  | [] => return ()
  | s :: ss => do
    flow A fuel s
    flowAll A fuel ss

end

/-! ### Running is a flow -/

/-- The actions of a run. -/
def running (calls : Calls) : Actions Machine where
  act s := s.exec calls 0
  test := Run.truth calls
  inside := Run.inside {}

theorem execAll_eq_flowAll {calls : Calls} {fuel : Nat} {ss : List Stmt}
    (h : ∀ s ∈ ss, s.exec calls fuel = s.flow (running calls) fuel) :
    execAll calls fuel ss = flowAll (running calls) fuel ss := by
  induction ss with
  | nil => rfl
  | cons s ss ih =>
    obtain ⟨hs, hss⟩ := List.forall_mem_cons.mp h
    rw [execAll, flowAll, hs, ih hss]

theorem forInit_eq (calls : Calls) (i : ForInit) :
    Run.forInit calls i = (running calls).act i.toStmt := by
  cases i <;> rfl

theorem forStep_eq (calls : Calls) (st : ForStep) :
    Run.forStep calls st = (running calls).act st.toStmt := by
  cases st <;> rfl

/-- A test that leaves a loop is the test that goes on, turned around. -/
theorem ite_not_eq {α : Type} (b : Bool) (x y : α) :
    (if (!b) = true then x else y) = if b = true then y else x := by
  cases b <;> rfl

theorem exec_eq_flow (calls : Calls) (fuel : Nat) (s : Stmt) :
    s.exec calls fuel = s.flow (running calls) fuel := by
  induction s with
  | ifThen c s ih =>
    rw [exec, flow, ih]
    rfl
  | ifElse c s t ihs iht =>
    rw [exec, flow, ihs, iht]
    rfl
  | whileLoop c s ih =>
    rw [exec, flow, ih, Control.iterate_eq, Control.attempt_eq]
    rfl
  | doWhile s c ih =>
    rw [exec, flow, ih, Control.iterate_eq, Control.attempt_eq]
    rfl
  | forLoop init c step s ih =>
    rw [flow, ← Control.attempt_eq, ← Control.iterate_eq, ← ih]
    cases init <;> cases c <;> cases step <;> rw [exec] <;>
      simp only [Option.map_none, Option.map_some, ite_not_eq, forInit_eq, forStep_eq,
        Actions.actIf, Actions.testIf] <;> rfl
  | block ss ih =>
    rw [exec, flow, execAll_eq_flowAll ih]
    rfl
  | ret value => cases value <;> rfl
  | _ => rfl

end Stmt

/-! ### What can be seen of a flow -/

inductive Event where
  | act (s : Stmt)
  | test (c : Expr) (holds : Bool)

def Event.isTest : Event → Bool
  | act _ => false
  | test _ _ => true

def Stmt.isReturn : Stmt → Bool
  | ret _ => true
  | _ => false

/-- Statements that hold no others and leave no loop. -/
def Stmt.isLeaf : Stmt → Bool
  | decl _ | assign _ _ | assignIndex _ _ _ | assignDeref _ _ | ret _ | call _ | increment _ _
  | decrement _ _
  | asm _ | hole => true
  | _ => false

theorem Stmt.flow_leaf {σ : Type} {A : Actions σ} {fuel : Nat} {s : Stmt} (h : s.isLeaf = true) :
    s.flow A fuel = A.act s := by
  cases s with
  | decl | assign | assignIndex | assignDeref | ret | call | increment | decrement | asm | hole =>
    rfl
  | _ => cases h

/-- The answer that a sequence of answers has for the next condition. -/
def nextAnswer (answers : Nat → Bool) (seen : List Event) : Bool :=
  answers (seen.countP Event.isTest)

/-- Actions that are only seen. Conditions are answered in turn, and a return ends the flow. -/
def tracing (answers : Nat → Bool) : Actions (List Event) where
  act s := fun seen => (if s.isReturn then .error (.returned 0) else .ok (), seen ++ [.act s])
  test c := fun seen =>
    let holds := nextAnswer answers seen
    (.ok holds, seen ++ [.test c holds])
  inside body := body

end WordC
