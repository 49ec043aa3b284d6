import WordC.Proofs.ControlFlow
import WordC.Proofs.StatementWays

/-!
# How statements end

The ways out of a statement are read off its text. Here they are the outcomes of its flow: what a
flow ends in is one of the ways out, over any actions that keep to the statement
(`Actions.Orderly.flow`), and for every way out some answers of the conditions lead to it
(`Stmt.scripted`). So a statement can be left at its end exactly if its flow comes to its end for
some answers.
-/

namespace WordC

open Step Control

/-! ### Outcomes -/

namespace Exits

/-- The outcomes that are ways out. -/
def Has (x : Exits) : Except Signal Unit → Prop
  | .ok () => x.ends = true
  | .error .breakLoop => x.breaks = true
  | .error .continueLoop => x.continues = true
  | .error _ => False

/-- The outcome is a way out, or a signal that no loop takes. -/
def Allows (x : Exits) (r : Except Signal Unit) : Prop :=
  x.Has r ∨ ∃ signal, r = .error signal ∧ signal.wantsLoop = false

variable {x y : Exits} {r : Except Signal Unit}

theorem has_iff : x.Has r ↔ r = .ok () ∧ x.ends = true ∨ r = .error .breakLoop ∧ x.breaks = true ∨
    r = .error .continueLoop ∧ x.continues = true := by
  rcases r with signal | ⟨⟩
  · cases signal <;> simp [Has]
  · simp [Has]

theorem has_atEnd : atEnd.Has r ↔ r = .ok () := by simp [has_iff, atEnd]

theorem has_either : (x.either y).Has r ↔ x.Has r ∨ y.Has r := by
  simp only [has_iff, either, Bool.or_eq_true]
  grind

theorem has_andThen : (x.andThen y).Has r ↔
    (∃ signal, r = .error signal ∧ x.Has r) ∨ x.ends = true ∧ y.Has r := by
  simp only [has_iff, andThen, Bool.or_eq_true, Bool.and_eq_true]
  grind

theorem has_ends {b : Bool} : (Exits.mk b false false).Has r ↔ b = true ∧ r = .ok () := by
  simp [has_iff, and_comm]

theorem has_break : (Exits.mk false true false).Has r ↔ r = .error .breakLoop := by simp [has_iff]

theorem has_continue : (Exits.mk false false true).Has r ↔ r = .error .continueLoop := by
  simp [has_iff]

theorem Allows.has {signal : Signal} (h : x.Allows (.error signal))
    (hsignal : signal.wantsLoop = true) : x.Has (.error signal) := by
  refine h.elim id fun ⟨other, heq, hother⟩ => ?_
  cases heq
  exact absurd (hsignal.symm.trans hother) Bool.false_ne_true.symm

theorem Allows.ends (h : x.Allows (.ok ())) : x.ends = true := h.elim id fun ⟨_, heq, _⟩ => by
  cases heq

end Exits

/-! ### Every outcome is a way out -/

/-- Actions that send no signal to a loop, do not go on behind a return, and come out of a block as
they come out of its body. -/
structure Actions.Orderly {σ : Type} (A : Actions σ) : Prop extends A.Contained where
  ret : ∀ value s, (A.act (.ret value) s).1 ≠ .ok ()
  through : ∀ body s, ∃ s', (A.inside body s).1 = (body s').1

theorem orderly_tracing (answers : Nat → Bool) : (tracing answers).Orderly where
  toContained := contained_tracing answers
  ret value seen heq := by cases (show Except.error (Signal.returned 0) = .ok () from heq)
  through _ seen := ⟨seen, rfl⟩

namespace Control

variable {σ : Type}

theorem eq_ok_of_outcome {step : Control σ Unit} {s : σ} (h : (step s).1 = .ok ()) :
    ∃ s', step s = (.ok (), s') :=
  ⟨(step s).2, Prod.ext h rfl⟩

theorem attempt_eq_ok {body : Control σ Unit} {s s' : σ} {b : Bool}
    (h : attempt body s = (.ok b, s')) :
    body s = (.ok (), s') ∧ b = true ∨ body s = (.error .continueLoop, s') ∧ b = true ∨
      body s = (.error .breakLoop, s') ∧ b = false := by
  unfold attempt at h
  rcases hbody : body s with ⟨signal | ⟨⟩, s₁⟩
  · rw [hbody] at h
    cases signal with
    | breakLoop | continueLoop =>
      cases h
      simp
    | failure | returned | outOfFuel => cases congrArg Prod.fst h
  · rw [hbody] at h
    cases h
    simp

/-- Rounds end in the one that does not go on. -/
theorem iterate_eq_ok {round : Control σ Bool} {fuel : Nat} {s s' : σ}
    (h : iterate round fuel s = (.ok (), s')) : ∃ s₁ s₂, round s₁ = (.ok false, s₂) := by
  induction fuel generalizing s with
  | zero => cases congrArg Prod.fst h
  | succ fuel ih =>
    obtain ⟨goesOn, s₁, hround, h⟩ := bind_eq_ok h
    cases goesOn with
    | true => exact ih h
    | false => exact ⟨s, s₁, hround⟩

end Control

namespace Actions.Orderly

variable {σ : Type} {A : Actions σ}

theorem allows_of_contained {x : Exits} {step : Control σ Unit} (hstep : step.Contained)
    (hends : ∀ s s', step s = (.ok (), s') → x.ends = true) (s : σ) : x.Allows (step s).1 := by
  rcases hs : step s with ⟨signal | ⟨⟩, s'⟩
  · exact .inr ⟨signal, rfl, hstep s signal (congrArg Prod.fst hs)⟩
  · exact .inl (hends s s' hs)

theorem allows_seq {x y : Exits} {first second : Control σ Unit}
    (hfirst : ∀ s, x.Allows (first s).1) (hsecond : ∀ s, y.Allows (second s).1) (s : σ) :
    (x.andThen y).Allows ((first >>= fun _ => second) s).1 := by
  have hs := hfirst s
  rcases hrun : first s with ⟨signal | ⟨⟩, s'⟩
  · rw [bind_error hrun]
    rw [hrun] at hs
    exact hs.imp_left fun hx => Exits.has_andThen.mpr (.inl ⟨signal, rfl, hx⟩)
  · rw [bind_ok hrun]
    rw [hrun] at hs
    exact (hsecond s').imp_left fun hy => Exits.has_andThen.mpr (.inr ⟨hs.ends, hy⟩)

theorem allows_choice {x : Exits} {test : Control σ Bool} {yes no : Control σ Unit}
    (htest : test.Contained) (hyes : ∀ s, x.Allows (yes s).1) (hno : ∀ s, x.Allows (no s).1)
    (s : σ) : x.Allows ((test >>= fun holds => if holds then yes else no) s).1 := by
  rcases hrun : test s with ⟨signal | holds, s'⟩
  · rw [bind_error hrun]
    exact .inr ⟨signal, rfl, htest s signal (congrArg Prod.fst hrun)⟩
  · rw [bind_ok hrun]
    cases holds with
    | true => exact hyes s'
    | false => exact hno s'

/-- A loop leaves its body for the next round at its end or by `continue`, and for good by `break`.
-/
theorem allows_attempt {x : Exits} {body : Control σ Unit} {s s' : σ} {goesOn : Bool}
    (hbody : x.Allows (body s).1) (h : attempt body s = (.ok goesOn, s')) :
    goesOn = true ∧ (x.ends = true ∨ x.continues = true) ∨ goesOn = false ∧ x.breaks = true := by
  rcases attempt_eq_ok h with ⟨hrun, hgoes⟩ | ⟨hrun, hgoes⟩ | ⟨hrun, hgoes⟩
  · rw [hrun] at hbody
    exact .inl ⟨hgoes, .inl hbody.ends⟩
  · rw [hrun] at hbody
    exact .inl ⟨hgoes, .inr (hbody.has rfl)⟩
  · rw [hrun] at hbody
    exact .inr ⟨hgoes, hbody.has rfl⟩

theorem allows_flowAll {fuel : Nat} {ss : List Stmt}
    (h : ∀ s ∈ ss, ∀ m, s.exits.Allows (s.flow A fuel m).1) (m : σ) :
    (Stmt.exitsAll ss).Allows (Stmt.flowAll A fuel ss m).1 := by
  induction ss generalizing m with
  | nil => exact .inl (Exits.has_atEnd.mpr rfl)
  | cons s ss ih =>
    obtain ⟨hs, hss⟩ := List.forall_mem_cons.mp h
    exact allows_seq hs (ih hss) m

/-- What a statement ends in is one of its ways out. -/
theorem allows_flow (h : A.Orderly) (fuel : Nat) (s : Stmt) (m : σ) :
    s.exits.Allows (s.flow A fuel m).1 := by
  induction s generalizing m with
  | ifThen c s ih =>
    rw [Stmt.exits]
    refine allows_choice (h.test c) (fun m => ?_) (fun m => ?_) m
    · exact (ih m).imp_left fun hs => Exits.has_either.mpr (.inl hs)
    · exact .inl (Exits.has_either.mpr (.inr (Exits.has_atEnd.mpr rfl)))
  | ifElse c s t ihs iht =>
    rw [Stmt.exits]
    refine allows_choice (h.test c) (fun m => ?_) (fun m => ?_) m
    · exact (ihs m).imp_left fun hs => Exits.has_either.mpr (.inl hs)
    · exact (iht m).imp_left fun ht => Exits.has_either.mpr (.inr ht)
  | whileLoop c s ih =>
    refine allows_of_contained (h.flow fuel (.whileLoop c s) rfl) (fun _ _ _ => ?_) m
    rw [Stmt.exits]
    rfl
  | doWhile s c ih =>
    refine allows_of_contained (h.flow fuel (.doWhile s c) rfl) (fun m m' hrun => ?_) m
    obtain ⟨m₁, m₂, hround⟩ := iterate_eq_ok hrun
    obtain ⟨goesOn, m₃, hbody, -⟩ := bind_eq_ok hround
    rw [Stmt.exits, Bool.or_eq_true, Bool.or_eq_true]
    exact (allows_attempt (ih m₁) hbody).imp And.right And.right
  | forLoop init c step s ih =>
    refine allows_of_contained (h.flow fuel (.forLoop init c step s) rfl) (fun m m' hrun => ?_) m
    rw [Stmt.flow] at hrun
    obtain ⟨m₀, hinside⟩ := h.through _ m
    rw [hrun] at hinside
    obtain ⟨m', hparts⟩ := eq_ok_of_outcome hinside.symm
    obtain ⟨_, m₁, -, hloop⟩ := bind_eq_ok hparts
    obtain ⟨m₁, m₂, hround⟩ := iterate_eq_ok hloop
    obtain ⟨holds, m₃, htest, hround⟩ := bind_eq_ok hround
    rw [Stmt.exits, Bool.or_eq_true]
    cases holds with
    | false =>
      -- the loop can only be left here if it has a condition
      cases c with
      | none => cases congrArg Prod.fst htest
      | some c => exact .inl rfl
    | true =>
      obtain ⟨goesOn, m₄, hbody, hround⟩ := bind_eq_ok hround
      rcases allows_attempt (ih m₃) hbody with ⟨rfl, -⟩ | ⟨-, hbreaks⟩
      · obtain ⟨_, m₅, -, hnext⟩ := bind_eq_ok hround
        cases congrArg Prod.fst hnext
      · exact .inr hbreaks
  | block ss ih =>
    obtain ⟨m', hinside⟩ := h.through (Stmt.flowAll A fuel ss) m
    rw [Stmt.exits, Stmt.flow, hinside]
    exact allows_flowAll ih m'
  | ret value =>
    refine allows_of_contained (h.act _ rfl) (fun m m' hrun => ?_) m
    exact absurd (congrArg Prod.fst hrun) (h.ret value m)
  | breakLoop | continueLoop => exact .inl rfl
  | decl | assign | assignIndex | assignDeref | call | increment | decrement | asm | hole =>
    refine allows_of_contained (h.act _ rfl) (fun _ _ _ => ?_) m
    rw [Stmt.exits]
    rfl

end Actions.Orderly

/-! ### Every way out is an outcome -/

/-- The answers from a place on begin with these. -/
def Answers (answers : Nat → Bool) : (start : Nat) → List Bool → Prop
  | _, [] => True
  | i, b :: bs => answers i = b ∧ Answers answers (i + 1) bs

theorem Answers.append {answers : Nat → Bool} {bs cs : List Bool} {i : Nat}
    (h : Answers answers i (bs ++ cs)) :
    Answers answers i bs ∧ Answers answers (i + bs.length) cs := by
  induction bs generalizing i with
  | nil => exact ⟨trivial, h⟩
  | cons b bs ih =>
    obtain ⟨hbs, hcs⟩ := ih h.2
    rw [List.length_cons, Nat.add_comm bs.length 1, ← Nat.add_assoc]
    exact ⟨⟨h.1, hbs⟩, hcs⟩

theorem answers_of_getD {answers : Nat → Bool} {bs : List Bool} {i : Nat}
    (h : ∀ j, answers (i + j) = bs.getD j false) : Answers answers i bs := by
  induction bs generalizing i with
  | nil => trivial
  | cons b bs ih =>
    refine ⟨h 0, ih fun j => ?_⟩
    rw [Nat.add_assoc, Nat.add_comm 1 j]
    exact h (j + 1)

/-- With some answers a step that is only traced has this outcome, wherever it begins and however
many rounds it may make. -/
def Scripted {α : Type} (step : (Nat → Bool) → (fuel : Nat) → Control (List Event) α)
    (r : Except Signal α) : Prop :=
  ∃ script : List Bool, ∀ answers fuel seen, 0 < fuel →
    Answers answers (seen.countP Event.isTest) script → ∃ seen', step answers fuel seen =
    (r, seen') ∧ seen'.countP Event.isTest = seen.countP Event.isTest + script.length

namespace Scripted

variable {α β : Type} {x : (Nat → Bool) → Nat → Control (List Event) α}
  {f : (Nat → Bool) → Nat → α → Control (List Event) β}

theorem value (a : α) : Scripted (fun _ _ => pure a) (.ok a) :=
  ⟨[], fun _ _ seen _ _ => ⟨seen, rfl, rfl⟩⟩

theorem signal (e : Signal) : Scripted (fun _ _ => (throw e : Control (List Event) α)) (.error e) :=
  ⟨[], fun _ _ seen _ _ => ⟨seen, rfl, rfl⟩⟩

theorem test (c : Expr) (b : Bool) :
    Scripted (fun answers _ => (tracing answers).test c) (.ok b) := by
  refine ⟨[b], fun answers fuel seen _ hanswers => ⟨seen ++ [.test c b], ?_, ?_⟩⟩
  · have hnext : nextAnswer answers seen = b := hanswers.1
    show (Except.ok (nextAnswer answers seen), seen ++ [Event.test c (nextAnswer answers seen)]) = _
    rw [hnext]
  · rw [List.countP_append]
    rfl

theorem act {s : Stmt} (hs : s.isReturn = false) :
    Scripted (fun answers _ => (tracing answers).act s) (.ok ()) := by
  refine ⟨[], fun answers fuel seen _ _ => ⟨seen ++ [.act s], ?_, ?_⟩⟩
  · show (if s.isReturn then _ else _, _) = _
    rw [hs]
    rfl
  · rw [List.countP_append]
    rfl

theorem next {a : α} {r : Except Signal β} (hx : Scripted x (.ok a))
    (hf : Scripted (fun answers fuel => f answers fuel a) r) :
    Scripted (fun answers fuel => x answers fuel >>= f answers fuel) r := by
  obtain ⟨bs, hbs⟩ := hx
  obtain ⟨cs, hcs⟩ := hf
  refine ⟨bs ++ cs, fun answers fuel seen hfuel hanswers => ?_⟩
  obtain ⟨hb, hc⟩ := hanswers.append
  obtain ⟨seen₁, hrun₁, hcount₁⟩ := hbs answers fuel seen hfuel hb
  obtain ⟨seen₂, hrun₂, hcount₂⟩ := hcs answers fuel seen₁ hfuel (hcount₁ ▸ hc)
  refine ⟨seen₂, (bind_ok hrun₁).trans hrun₂, ?_⟩
  rw [hcount₂, hcount₁, List.length_append, Nat.add_assoc]

theorem stop {e : Signal} (hx : Scripted x (.error e)) :
    Scripted (fun answers fuel => x answers fuel >>= f answers fuel) (.error e) := by
  obtain ⟨bs, hbs⟩ := hx
  refine ⟨bs, fun answers fuel seen hfuel hanswers => ?_⟩
  obtain ⟨seen₁, hrun, hcount⟩ := hbs answers fuel seen hfuel hanswers
  exact ⟨seen₁, bind_error hrun, hcount⟩

theorem attempt {body : (Nat → Bool) → Nat → Control (List Event) Unit} {r : Except Signal Unit}
    {b : Bool} (hbody : Scripted body r) (h : ∀ {step : Control (List Event) Unit} {s s'},
      step s = (r, s') → Control.attempt step s = (.ok b, s')) :
    Scripted (fun answers fuel => Control.attempt (body answers fuel)) (.ok b) := by
  obtain ⟨bs, hbs⟩ := hbody
  refine ⟨bs, fun answers fuel seen hfuel hanswers => ?_⟩
  obtain ⟨seen₁, hrun, hcount⟩ := hbs answers fuel seen hfuel hanswers
  exact ⟨seen₁, h hrun, hcount⟩

/-- A loop can be left in its first round. -/
theorem iterate {round : (Nat → Bool) → Nat → Control (List Event) Bool}
    (h : Scripted round (.ok false)) :
    Scripted (fun answers fuel => Control.iterate (round answers fuel) fuel) (.ok ()) := by
  obtain ⟨bs, hbs⟩ := h
  refine ⟨bs, fun answers fuel seen hfuel hanswers => ?_⟩
  obtain ⟨seen₁, hrun, hcount⟩ := hbs answers fuel seen hfuel hanswers
  refine ⟨seen₁, ?_, hcount⟩
  obtain ⟨n, rfl⟩ := Nat.exists_eq_succ_of_ne_zero (Nat.ne_of_gt hfuel)
  exact bind_ok hrun

end Scripted

namespace Stmt

open Scripted

theorem scripted_all {ss : List Stmt} {r : Except Signal Unit} (hr : (exitsAll ss).Has r)
    (h : ∀ s ∈ ss, ∀ {r}, s.exits.Has r →
      Scripted (fun answers fuel => s.flow (tracing answers) fuel) r) :
    Scripted (fun answers fuel => flowAll (tracing answers) fuel ss) r := by
  induction ss generalizing r with
  | nil =>
    rw [Exits.has_atEnd.mp hr]
    exact value ()
  | cons s ss ih =>
    obtain ⟨hs, hss⟩ := List.forall_mem_cons.mp h
    rcases Exits.has_andThen.mp hr with ⟨signal, rfl, hfirst⟩ | ⟨hends, hrest⟩
    · exact stop (hs hfirst)
    · exact next (hs (r := .ok ()) hends) (ih hrest hss)

/-- The body of a loop is left for good, or for the next round. -/
theorem scripted_attempt {s : Stmt}
    (h : ∀ {r}, s.exits.Has r → Scripted (fun answers fuel => s.flow (tracing answers) fuel) r) :
    (s.exits.breaks = true →
      Scripted (fun answers fuel => attempt (s.flow (tracing answers) fuel)) (.ok false)) ∧
    (s.exits.ends = true ∨ s.exits.continues = true →
      Scripted (fun answers fuel => attempt (s.flow (tracing answers) fuel)) (.ok true)) := by
  refine ⟨fun hbreaks => ?_, fun hagain => ?_⟩
  · exact (h (r := .error .breakLoop) hbreaks).attempt fun hrun => by rw [Control.attempt, hrun]
  · rcases hagain with hends | hcontinues
    · exact (h (r := .ok ()) hends).attempt fun hrun => by rw [Control.attempt, hrun]
    · exact (h (r := .error .continueLoop) hcontinues).attempt fun hrun => by
        rw [Control.attempt, hrun]

/-- For every way out of a statement there are answers that lead to it. -/
theorem scripted (s : Stmt) {r : Except Signal Unit} (hr : s.exits.Has r) :
    Scripted (fun answers fuel => s.flow (tracing answers) fuel) r := by
  induction s generalizing r with
  | ifThen c s ih =>
    rw [exits] at hr
    rcases Exits.has_either.mp hr with hs | hend
    · exact next (test c true) (ih hs)
    · rw [Exits.has_atEnd.mp hend]
      exact next (test c false) (value ())
  | ifElse c s t ihs iht =>
    rw [exits] at hr
    rcases Exits.has_either.mp hr with hs | ht
    · exact next (test c true) (ihs hs)
    · exact next (test c false) (iht ht)
  | whileLoop c s ih =>
    rw [exits] at hr
    rw [Exits.has_atEnd.mp hr]
    exact iterate (next (test c false) (value false))
  | doWhile s c ih =>
    rw [exits] at hr
    obtain ⟨hleft, rfl⟩ := Exits.has_ends.mp hr
    obtain ⟨hbreak, hagain⟩ := scripted_attempt ih
    rw [Bool.or_eq_true, Bool.or_eq_true] at hleft
    refine iterate ?_
    rcases hleft with hleft | hleft
    · exact next (hagain hleft) (test c false)
    · exact next (hbreak hleft) (value false)
  | forLoop init c step s ih =>
    rw [exits] at hr
    obtain ⟨hleft, rfl⟩ := Exits.has_ends.mp hr
    have hinit :
        Scripted (fun answers _ => (tracing answers).actIf (init.map ForInit.toStmt)) (.ok ()) := by
      cases init with
      | none => exact value ()
      | some i => exact act (by cases i <;> rfl)
    refine next hinit (iterate ?_)
    rw [Bool.or_eq_true] at hleft
    rcases hleft with hcondition | hbreaks
    · obtain ⟨c, rfl⟩ := Option.isSome_iff_exists.mp hcondition
      exact next (test c false) (value false)
    · have htest : Scripted (fun answers _ => (tracing answers).testIf c) (.ok true) := by
        cases c with
        | none => exact value true
        | some c => exact test c true
      exact next htest (next ((scripted_attempt ih).1 hbreaks) (value false))
  | block ss ih =>
    rw [exits] at hr
    exact scripted_all hr ih
  | ret value =>
    rw [exits, Exits.has_ends] at hr
    exact absurd hr.1 Bool.false_ne_true
  | breakLoop =>
    rw [exits] at hr
    rw [Exits.has_break.mp hr]
    exact signal .breakLoop
  | continueLoop =>
    rw [exits] at hr
    rw [Exits.has_continue.mp hr]
    exact signal .continueLoop
  | decl | assign | assignIndex | assignDeref | call | increment | decrement | asm | hole =>
    rw [exits] at hr
    rw [Exits.has_atEnd.mp hr]
    exact act rfl

/-- A statement can be left at its end exactly if its flow comes to its end for some answers. -/
theorem ends_iff {s : Stmt} : s.exits.ends = true ↔
    ∃ answers seen, (s.behaviour answers).ends false seen := by
  constructor
  · intro hends
    obtain ⟨script, hscript⟩ := s.scripted (r := .ok ()) hends
    obtain ⟨seen, hrun, -⟩ := hscript (fun n => script.getD n false) 1 [] Nat.one_pos
      (answers_of_getD fun j => congrArg (script.getD · false) (Nat.zero_add j))
    exact ⟨_, seen, 1, congrArg (endingOf ·.1) hrun, congrArg Prod.snd hrun⟩
  · rintro ⟨answers, seen, fuel, hending, -⟩
    have hallows := (orderly_tracing answers).allows_flow fuel s []
    rcases hr : (s.flow (tracing answers) fuel []).1 with signal | ⟨⟩
    · rw [hr] at hending
      cases signal <;> cases hending
    · rw [hr] at hallows
      exact hallows.ends

end Stmt

/-! ### Runs -/

theorem orderly_running {calls : Calls} (hcalls : calls.Contained) :
    (Stmt.running calls).Orderly where
  act _ hleaf := hcalls.leaf hleaf
  test := hcalls.truth
  inside _ := Run.contained_inside {}
  ret value m heq := by
    obtain ⟨m', hrun⟩ := eq_ok_of_outcome heq
    cases value with
    | none => cases congrArg Prod.fst hrun
    | some e =>
      obtain ⟨v, m₁, -, hthrow⟩ := bind_eq_ok hrun
      cases congrArg Prod.fst hthrow
  through body m := ⟨{ m with scopes := {} :: m.scopes }, rfl⟩

/-- A run that comes to the end of a statement shows that it can be left there. -/
theorem ends_of_exec {calls : Calls} (hcalls : calls.Contained) {s : Stmt} {fuel : Nat}
    {m m' : Machine} (h : s.exec calls fuel m = (.ok (), m')) : s.exits.ends = true := by
  have hallows := (orderly_running hcalls).allows_flow fuel s m
  rw [← Stmt.exec_eq_flow, h] at hallows
  exact hallows.ends

end WordC
