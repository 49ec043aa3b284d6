import WordC.Proofs.CallerState

/-!
# States of the compiler

A compiler can be asked for the code of expressions, statements, functions and whole programs, one
after the other, and it goes on with its tables even where one of them was refused. In whatever
state this leaves it, temporaries are handed out in turn, each function has the label of its name,
and the loops that are open go on at labels of their own.
-/

namespace WordC

open Asm Compile Step

structure Compiler.Regular (c : Compiler) : Prop where
  turning : c.pool.nextTemp < 10
  linked : ∀ f l, c.functions.get? f = some l → l = functionLabel f
  loops : ∀ loop ∈ c.loops, loop.next.isEntry = false ∧ loop.exit.isEntry = false

namespace Compiler.Regular

variable {c c' : Compiler}

theorem start : ({} : Compiler).Regular where
  turning := by decide
  linked _ _ hl := by cases hl
  loops := List.forall_mem_nil _

theorem of_extends (h : c.Regular) (hc' : c.Extends c') : c'.Regular where
  turning := hc'.turning h.turning
  linked := hc'.functions ▸ h.linked
  loops := hc'.loops ▸ h.loops

/-- The labels of further functions. -/
theorem link (h : c.Regular) (fs : List Func) :
    ({ c with functions := fs.foldl (fun t f => t.set f.name (functionLabel f.name)) c.functions } :
      Compiler).Regular :=
  { h with linked := Program.linked_functions fs h.linked }

theorem enter (h : c.Regular) (f : Func) : (c.enter f).Regular :=
  { h with turning := start.turning }

theorem leave (h : c'.Regular) (houter : c.Regular) : (c'.leave c).Regular :=
  { h with turning := houter.turning }

theorem joinData (h : c.Regular) : (joinData c).Regular := by
  unfold Compile.joinData
  split
  · exact h
  · exact ⟨h.turning, h.linked, h.loops⟩

end Compiler.Regular

/-! ### Steps, whether they end in a value or in an error -/

namespace Compile

variable {α β : Type}

def Regular (x : Compile α) : Prop := ∀ c : Compiler, c.Regular → (x c).2.Regular

theorem Keeps.regular {x : Compile α} (hx : x.Keeps) : x.Regular := fun c hc => hc.of_extends (hx c)

theorem regular_bind {x : Compile α} {y : α → Compile β} (hx : x.Regular)
    (hy : ∀ a, (y a).Regular) : Regular (x >>= y) := by
  intro c hc
  have hstep := hx c hc
  rw [bind_apply]
  rcases hxc : x c with ⟨e | a, c'⟩
  · rw [hxc] at hstep
    exact hstep
  · rw [hxc] at hstep
    exact hy a c' hstep

theorem regular_modify {f : Compiler → Compiler} (hf : ∀ c, c.Regular → (f c).Regular) :
    Regular (modify f) := hf

/-- A function gives its registers back only if it is compiled to its end; otherwise the compiler
goes on with them. -/
theorem regular_function (f : Func) : f.compile.Regular := by
  intro c hc
  rw [Func.compile_eq, bind_ok (get_apply c)]
  refine regular_bind (regular_modify fun c' hc' => hc'.enter f) (fun _ => ?_) c hc
  exact regular_bind f.keeps_lines.regular fun _ => regular_modify fun c' hc' => hc'.leave hc

theorem regular_functionAll (fs : List Func) : (functionAll fs).Regular := by
  induction fs with
  | nil => exact (keeps_pure ()).regular
  | cons f fs ih => exact regular_bind (regular_function f) fun _ => ih

theorem regular_mainLines (main : Option Func) : (mainLines main).Regular := by
  cases main with
  | none => exact (keeps_pure ()).regular
  | some f =>
    refine regular_bind (keeps_line _).regular fun _ =>
      regular_bind (keeps_line _).regular fun _ => ?_
    exact regular_function f

theorem regular_program (p : Program) (includes : List String) : (p.compile includes).Regular := by
  rw [Program.compile_eq]
  refine regular_bind (regular_modify fun c hc => ⟨hc.turning, hc.linked, hc.loops⟩) fun _ => ?_
  refine regular_bind (keeps_header includes).regular fun _ => ?_
  refine regular_bind (regular_modify fun c hc => hc.link p.functions) fun _ => ?_
  refine regular_bind (keeps_globalAll p.globals).regular fun _ => ?_
  refine regular_bind (regular_mainLines p.mainFunction?) fun _ => ?_
  exact regular_bind (regular_functionAll p.otherFunctions) fun _ =>
    regular_modify fun c hc => hc.joinData

end Compile

/-! ### Reached states -/

/-- The states that requests bring a compiler to, inside and outside of functions and loops. -/
inductive Compiler.Reached : Compiler → Prop
  | start : Reached {}
  | expr {c : Compiler} (h : Reached c) (e : Expr) : Reached (e.compile c).2
  | stmt {c : Compiler} (h : Reached c) (s : Stmt) : Reached (s.compile c).2
  | function {c : Compiler} (h : Reached c) (f : Func) : Reached (f.compile c).2
  | program {c : Compiler} (h : Reached c) (p : Program) (includes : List String) :
      Reached (p.compile includes c).2
  | link {c : Compiler} (h : Reached c) (fs : List Func) :
    Reached { c with
    functions := fs.foldl (fun t f => t.set f.name (functionLabel f.name)) c.functions }
  | enter {c : Compiler} (h : Reached c) (f : Func) : Reached (c.enter f)
  | openLoop {c : Compiler} (h : Reached c) (next exit : Stem) (m n : Nat) :
    Reached (c.openLoop ⟨.minted next m, .minted exit n⟩)

theorem Compiler.Reached.regular {c : Compiler} (h : c.Reached) : c.Regular := by
  induction h with
  | start => exact .start
  | expr _ e ih => exact ih.of_extends (e.keeps_compile _)
  | stmt _ s ih => exact ih.of_extends (s.keeps_compile _)
  | function _ f ih => exact regular_function f _ ih
  | program _ p includes ih => exact regular_program p includes _ ih
  | link _ fs ih => exact ih.link fs
  | enter _ f ih => exact ih.enter f
  | openLoop _ next exit m n ih =>
    exact { ih with loops := List.forall_mem_cons.mpr ⟨⟨rfl, rfl⟩, ih.loops⟩ }

end WordC
