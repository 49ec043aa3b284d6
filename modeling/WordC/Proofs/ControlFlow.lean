import WordC.Proofs.Tracks

/-!
# Code behaves like its statement

What can be seen of a run is how it ends and what it has performed, or, of a run that does not end,
all that it performs on its way. The code of a statement in which every `break` and `continue`
stands in a loop has the behaviour of the statement, for all answers of its conditions, if no
condition is followed by a line that clears the register which its jump looks at. Where one is, the
jump is taken whatever the answer was.
-/

namespace WordC

open Asm Track

/-- What can be seen of a run. -/
@[ext]
structure Behaviour where
  /-- The run ends, in a return or behind its last part, and has performed these. -/
  ends : (returned : Bool) → List Event → Prop
  goesOn : Prop
  /-- At some time the run has performed these, and perhaps more. -/
  performs : List Event → Prop

/-- Whether a flow has ended in a return, if it has come to an end. -/
def endingOf : Except Signal Unit → Option Bool
  | .ok () => some false
  | .error (.returned _) => some true
  | .error _ => none

/-- A statement goes on if it is given up however far it is followed. -/
def Stmt.behaviour (s : Stmt) (answers : Nat → Bool) : Behaviour where
  ends returned seen := ∃ fuel,
    endingOf (s.flow (tracing answers) fuel []).1 = some returned ∧
    (s.flow (tracing answers) fuel []).2 = seen
  goesOn := ∀ fuel, (s.flow (tracing answers) fuel []).1 = .error .outOfFuel
  performs seen := ∃ fuel, seen <+: (s.flow (tracing answers) fuel []).2

namespace Track

/-- At the first piece, with whatever is in the registers and the memory. -/
def start (cpu : Cpu) : Track := ⟨cpu.jump 0, [], false⟩

def behaviour (w : Unknowns) (all : List CodePiece) (cpu : Cpu) : Behaviour where
  ends returned seen := ∃ n t, run w all (start cpu) n = some t ∧ t.seen = seen ∧
    t.returned = returned ∧ (returned = false → t.cpu.pc = all.length)
  goesOn := ∀ n, (run w all (start cpu) n).isSome = true
  performs seen := ∃ n t, run w all (start cpu) n = some t ∧ seen <+: t.seen

/-! ### Runs of a track -/

variable {w : Unknowns} {all : List CodePiece} {s t t' : Track} {m n : Nat}

theorem seen_step (h : step w all s = some t) : s.seen <+: t.seen := by
  unfold step at h
  split at h
  · cases h
  · split at h
    · cases h
    · cases h
      exact List.prefix_append ..
    · cases h
      exact List.prefix_append ..
    · obtain ⟨cpu, -, rfl⟩ := Option.map_eq_some_iff.mp h
      exact List.prefix_refl _

theorem seen_run (h : run w all s n = some t) : s.seen <+: t.seen := by
  induction n generalizing t with
  | zero =>
    cases h
    exact List.prefix_refl _
  | succ n ih =>
    obtain ⟨t₁, ht₁, hstep⟩ := Option.bind_eq_some_iff.mp h
    exact (ih ht₁).trans (seen_step hstep)

/-- Of two moments of a run, the later one has seen at least as much. -/
theorem seen_mono (hm : run w all s m = some t) (hn : run w all s n = some t') (hle : m ≤ n) :
    t.seen <+: t'.seen := by
  obtain ⟨d, rfl⟩ := Nat.exists_eq_add_of_le hle
  rw [run_add, hm] at hn
  exact seen_run hn

theorem isSome_run (hn : run w all s n = some t) (hle : m ≤ n) : (run w all s m).isSome = true := by
  obtain ⟨d, rfl⟩ := Nat.exists_eq_add_of_le hle
  rw [run_add] at hn
  obtain ⟨t₁, ht₁, -⟩ := Option.bind_eq_some_iff.mp hn
  rw [ht₁]
  rfl

/-- Nothing comes behind the end of a run. -/
theorem le_of_final (hm : run w all s m = some t) (hfinal : step w all t = none)
    (hn : (run w all s n).isSome = true) : n ≤ m := by
  by_contra hlt
  obtain ⟨t', ht'⟩ := Option.isSome_iff_exists.mp hn
  have hnext := isSome_run ht' (show m + 1 ≤ n by omega)
  rw [run, hm, Option.bind_some, hfinal] at hnext
  exact Bool.false_ne_true hnext

theorem final_unique (hm : run w all s m = some t) (hfinal : step w all t = none)
    (hn : run w all s n = some t') (hfinal' : step w all t' = none) : t = t' := by
  have hle := le_of_final hm hfinal (by rw [hn]; rfl)
  have hle' := le_of_final hn hfinal' (by rw [hm]; rfl)
  obtain rfl : m = n := Nat.le_antisymm hle' hle
  exact Option.some.inj (hm.symm.trans hn)

theorem step_of_returned (h : t.returned = true) : step w all t = none := by
  rw [step, if_pos h]

theorem step_of_end (h : t.cpu.pc = all.length) : step w all t = none := by
  unfold step
  split
  · rfl
  · rw [h, List.getElem?_length]

end Track

/-! ### One behaviour -/

theorem contained_tracing (answers : Nat → Bool) : (tracing answers).Contained where
  act s _ := by
    intro seen signal h
    rw [show ((tracing answers).act s seen).1 = if s.isReturn then .error
      (.returned 0) else .ok () from rfl] at h
    split at h
    · exact Except.error.inj h ▸ rfl
    · exact nomatch h
  test c := fun _ signal h => nomatch (show Except.ok _ = .error signal from h)
  inside _ h := h

/-- A track agrees with a flow that is followed over some rounds: it ends like the flow, or goes as
far as the flow has come. -/
def Agrees (w : Unknowns) (all : List CodePiece) (cpu : Cpu) (fuel : Nat)
    (result : Except Signal Unit × List Event) : Prop :=
  (∃ returned, endingOf result.1 = some returned ∧
    (Track.behaviour w all cpu).ends returned result.2) ∨ (result.1 = .error .outOfFuel ∧
    ∃ n t, fuel ≤ n ∧ run w all (start cpu) n = some t ∧ t.seen = result.2)

section Agreement

variable {w : Unknowns} {all : List CodePiece} {cpu : Cpu} {fuel : Nat} {returned : Bool}
  {seen : List Event}

theorem Lands.agrees {loops : List LoopLabels} {result : Except Signal Unit × List Event}
    (h : Lands w all loops (fun _ => all.length) fuel 0 [] result)
    (hloop : ∀ signal, result.1 = .error signal → signal.wantsLoop = false) (cpu : Cpu) :
    Agrees w all cpu fuel result := by
  have hstart : (start cpu).At 0 [] := ⟨rfl, rfl, rfl⟩
  rcases result with ⟨signal | _, seen⟩
  · cases signal with
    | failure e => exact h.elim
    | breakLoop | continueLoop => exact nomatch hloop _ rfl
    | returned v =>
      obtain ⟨n, t, -, hrun, hreturned, hseen⟩ := h _ hstart
      exact .inl ⟨true, rfl, n, t, hrun, hseen, hreturned, nofun⟩
    | outOfFuel =>
      obtain ⟨n, t, hn, hrun, hseen⟩ := h _ hstart
      exact .inr ⟨rfl, n, t, hn, hrun, hseen⟩
  · obtain ⟨n, t, -, hrun, hpc, hseen, hgoes⟩ := h _ hstart
    exact .inl ⟨false, rfl, n, t, hrun, hseen, hgoes, fun _ => hpc⟩

theorem final_of_ends (h : (Track.behaviour w all cpu).ends returned seen) :
    ∃ n t, run w all (start cpu) n = some t ∧ step w all t = none ∧ t.seen = seen ∧
    t.returned = returned := by
  obtain ⟨n, t, hrun, hseen, hreturned, hpc⟩ := h
  refine ⟨n, t, hrun, ?_, hseen, hreturned⟩
  cases returned with
  | true => exact step_of_returned hreturned
  | false => exact step_of_end (hpc rfl)

variable {flow : Nat → Except Signal Unit × List Event}
  (hflow : ∀ fuel, Agrees w all cpu fuel (flow fuel))

include hflow

theorem ends_iff : (Track.behaviour w all cpu).ends returned seen ↔
    ∃ fuel, endingOf (flow fuel).1 = some returned ∧ (flow fuel).2 = seen := by
  constructor
  · intro h
    obtain ⟨n, t, hrun, hfinal, hseen, hreturned⟩ := final_of_ends h
    refine ⟨n + 1, ?_⟩
    rcases hflow (n + 1) with ⟨returned', hending, hends⟩ | ⟨-, n', t', hn', hrun', -⟩
    · obtain ⟨n', t', hrun', hfinal', hseen', hreturned'⟩ := final_of_ends hends
      cases final_unique hrun hfinal hrun' hfinal'
      rw [hending, ← hreturned', hreturned]
      exact ⟨rfl, hseen'.symm.trans hseen⟩
    · have hle := le_of_final hrun hfinal (by rw [hrun']; rfl)
      omega
  · rintro ⟨fuel, hending, rfl⟩
    rcases hflow fuel with ⟨returned', hending', hends⟩ | ⟨hfuel, -⟩
    · cases hending.symm.trans hending'
      exact hends
    · rw [hfuel] at hending
      exact nomatch hending

theorem goesOn_iff : (Track.behaviour w all cpu).goesOn ↔
    ∀ fuel, (flow fuel).1 = .error .outOfFuel := by
  constructor
  · intro h fuel
    rcases hflow fuel with ⟨returned, -, hends⟩ | ⟨hfuel, -⟩
    · obtain ⟨n, t, hrun, hfinal, -⟩ := final_of_ends hends
      exact absurd (le_of_final hrun hfinal (h (n + 1))) (by omega)
    · exact hfuel
  · intro h n
    rcases hflow n with ⟨returned, hending, -⟩ | ⟨-, n', t, hn', hrun, -⟩
    · rw [h n] at hending
      exact nomatch hending
    · exact isSome_run hrun hn'

theorem performs_iff : (Track.behaviour w all cpu).performs seen ↔
    ∃ fuel, seen <+: (flow fuel).2 := by
  constructor
  · rintro ⟨n, t, hrun, hseen⟩
    refine ⟨n, hseen.trans ?_⟩
    rcases hflow n with ⟨returned, -, hends⟩ | ⟨-, n', t', hn', hrun', hseen'⟩
    · obtain ⟨n', t', hrun', hfinal', hseen', -⟩ := final_of_ends hends
      exact hseen' ▸ seen_mono hrun hrun' (le_of_final hrun' hfinal' (by rw [hrun]; rfl))
    · exact hseen' ▸ seen_mono hrun hrun' hn'
  · rintro ⟨fuel, hseen⟩
    rcases hflow fuel with ⟨returned, -, n, t, hrun, hseen', -⟩ | ⟨-, n, t, -, hrun, hseen'⟩
    · exact ⟨n, t, hrun, hseen' ▸ hseen⟩
    · exact ⟨n, t, hrun, hseen' ▸ hseen⟩

end Agreement

variable {k : Compiler} {s : Stmt} {ps : List CodePiece}

/-- The code of a statement behaves like the statement where no condition's register is cleared
before its jump. -/
theorem Lowers.behaviour_eq {k' : Compiler} (h : Lowers s k ps k') (hs : s.closed = true)
    (hturn : k.pool.nextTemp < 10) (hkeeps : KeepsTests ps) (w : Unknowns) (cpu : Cpu) :
    Track.behaviour w ps cpu = s.behaviour w.answers := by
  have hflow (fuel : Nat) : Agrees w ps cpu fuel (s.flow (tracing w.answers) fuel []) := by
    have hlands :=
      h.goes (w := w) hkeeps fuel 0 (List.prefix_refl ps) (fun _ _ _ => List.not_mem_nil) hturn []
    rw [Nat.zero_add] at hlands
    exact hlands.agrees ((contained_tracing w.answers).flow fuel s hs []) cpu
  ext
  · exact ends_iff hflow
  · exact goesOn_iff hflow
  · exact performs_iff hflow

/-- The code of a statement in which every `break` and `continue` stands in a loop falls into the
code of its actions and conditions and the jumps between. If no condition's register is cleared
before its jump, the code behaves like the statement, for all answers and whatever else the actions
and conditions leave in the registers. Where it is cleared, the branch is never taken. -/
theorem code_behaves (s : Stmt) (k k' : Compiler) (hs : s.closed = true)
    (hturn : k.pool.nextTemp < 10) (hcompile : s.compile k = (.ok (), k')) :
    (∀ calls fuel, s.exec calls fuel = s.flow (Stmt.running calls) fuel) ∧
    (∃ ps, Lowers s k ps k') ∧ ∀ ps, Lowers s k ps k' →
      k'.code.toList = k.code.toList ++ ps.flatMap CodePiece.lines ∧
      (KeepsTests ps → ∀ w cpu, Track.behaviour w ps cpu = s.behaviour w.answers) ∧
      ∀ pos c r ls l rest, Placed ps pos
      (.test c r ls :: .line (clearLine r) :: .line (exitLine r l) :: rest) → r ≠ ip →
        ∀ w seen, Reaches w ps 1 pos seen
        (At (placeOf ps l) (seen ++ [.test c (nextAnswer w.answers seen)])) := by
  refine ⟨fun calls fuel => s.exec_eq_flow calls fuel, compile_lowers s hcompile, fun ps h => ?_⟩
  refine ⟨h.segment.code, fun hkeeps w cpu => h.behaviour_eq hs hturn hkeeps w cpu, ?_⟩
  intro pos c r ls l rest hplaced hip w seen
  have hreach : Reaches w ps 1 pos seen _ := reaches_test_clear_exit hplaced hip
  simpa using hreach

/-! ### Two statements -/

theorem literal_compile (n : Nat) (k : Compiler) : (Expr.literal n).compile k =
    (.ok (k.pool.nth 0), k.wrote 1 0 [.instr (.mov (k.pool.nth 0) (.imm (Word.wrap n)))]) := by
  rw [Expr.compile, Step.bind_ok (Compiler.temp_eq _), Step.bind_ok (Compiler.emit_wrote ..)]
  rfl

/-- A loop that can be left from inside. -/
def leavable : Stmt := .whileLoop (.literal 1) (.ifElse (.literal 2) .continueLoop .breakLoop)

theorem leavable_keeps (h : Lowers leavable {} ps k) : KeepsTests ps := by
  cases h with
  | leaf hleaf => cases hleaf
  | whileLoop _ _ hk hc hs =>
    subst hk
    cases (literal_compile 1 _).symm.trans hc
    cases hs with
    | leaf hleaf => cases hleaf
    | ifElse hc' hz _ _ hs ht =>
      cases (literal_compile 2 _).symm.trans hc'
      cases hs with
      | leaf hleaf => cases hleaf
      | continueLoop _ =>
        cases ht with
        | leaf hleaf => cases hleaf
        | breakLoop _ =>
          subst hz
          simp only [KeepsTests, exitLine, clearLine, List.cons_append, List.nil_append,
            List.isChain_cons_cons, CodePiece.Keeps, ne_eq, Line.instr.injEq, reduceCtorEq,
            not_false_eq_true, Instr.mov.injEq, and_true, List.IsChain.singleton,
            and_self, true_and]
          exact (by decide : ¬3 = 2)

theorem accepted_of_isOk (h : (s.compile k).1.isOk = true) :
    s.compile k = (.ok (), (s.compile k).2) := by
  rcases hrun : s.compile k with ⟨e | _, k'⟩
  · rw [hrun] at h
    exact nomatch h
  · rfl

theorem leavable_behaves : ∃ ps k, leavable.compile {} = (.ok (), k) ∧ Lowers leavable {} ps k ∧
    KeepsTests ps ∧ ∀ w cpu, Track.behaviour w ps cpu = leavable.behaviour w.answers := by
  have hcompile := accepted_of_isOk (s := leavable) (k := {}) (by decide +kernel)
  obtain ⟨-, ⟨ps, h⟩, hall⟩ := code_behaves leavable {} _ rfl (by decide) hcompile
  exact ⟨ps, _, hcompile, h, leavable_keeps h, (hall ps h).2.1 (leavable_keeps h)⟩

/-- Conditions that are answered as given, and nothing else in the registers. -/
def Unknowns.answering (answers : Nat → Bool) : Unknowns where
  answers
  afterAct _ _ := 0
  afterTest seen _ _ := if seen.getLast? matches some (.test _ true) then 1 else 0
  tested_eq_zero seen c holds r := by cases holds <;> simp

/-- Takes nine temporaries. -/
def nineDraws : Stmt :=
  .assign "a" (.binary .add (.literal 1) (.binary .add (.literal 1) (.binary .add (.literal 1)
    (.binary .add (.literal 1) (.literal 1)))))

/-- Behind nine draws, a condition and the line that clears a register take the same temporary. -/
def skipping : Stmt := .block [nineDraws, .ifThen (.literal 1) (.assign "a" (.literal 2))]

theorem skipping_pieces (h : Lowers skipping {} ps k) : ∃ r done ls₁ ls₂ ls₃, r ≠ ip ∧
    ps = [.act nineDraws ls₁, .test (.literal 1) r ls₂, .line (clearLine r),
      .line (exitLine r done), .act (.assign "a" (.literal 2)) ls₃, .line (.label done)] := by
  cases h with
  | leaf hleaf => cases hleaf
  | @cons _ _ _ k₁ _ _ _ hs hss =>
    cases hs with
    | leaf _ ha =>
      have hturn : k₁.pool.nextTemp = 0 :=
        (congrArg (fun result => result.2.pool.nextTemp) ha).symm.trans (by decide +kernel)
      cases hss with
      | leaf hleaf => cases hleaf
      | cons ht hnil =>
        cases ht with
        | leaf hleaf => cases hleaf
        | ifThen hc hz hdone hbody =>
          cases (literal_compile 1 _).symm.trans hc
          have hdraw : k₁.pool.nth 0 = 1 := by simp [RegPool.nth, RegPool.skip, RegPool.temp, hturn]
          have hdraw' : (k₁.pool.skip 1).nth 0 = 1 := by
            simp [RegPool.nth, RegPool.skip, RegPool.temp, hturn]
          obtain rfl : _ = k₁.pool.nth 0 := hz.trans (hdraw'.trans hdraw.symm)
          cases hbody with
          | leaf =>
            cases hnil with
            | leaf hleaf => cases hleaf
            | nil => exact ⟨_, _, _, _, _, hdraw ▸ (by decide), rfl⟩

/-- Pieces as those of `skipping` never come to the second action. -/
theorem skips (w : Unknowns) (cpu : Cpu) {all : List CodePiece} {t : Stmt} {c : Expr} {r : Reg}
    {done : Label} {ls₁ ls₂ ls₃ : List Line}
    (hall : all = [.act s ls₁, .test c r ls₂, .line (clearLine r), .line (exitLine r done),
      .act t ls₃, .line (.label done)]) (hip : r ≠ ip) (hs : s.isReturn = false) :
    (Track.behaviour w all cpu).ends false [.act s, .test c (nextAnswer w.answers [.act s])] := by
  have hplaced : Placed all 0 all := List.prefix_refl all
  nth_rewrite 2 [hall] at hplaced
  have hplace : placeOf all done = 5 :=
    placeOf_eq (show Placed all 0 ([_, _, _, .line (exitLine r done), _] ++ _ :: []) from hplaced)
      List.not_mem_nil (by simp [clearLine, exitLine])
  have hact : Reaches w all 1 0 [] (At 1 [.act s]) := fun t ht => by
    obtain ⟨n, t', hn, hrun, hpc, hseen, hreturned⟩ := reaches_act hplaced t ht
    exact ⟨n, t', hn, hrun, hpc, hseen, hreturned.trans hs⟩
  have htest :
      Reaches w all 1 1 [.act s] (At 5 [.act s, .test c (nextAnswer w.answers [.act s])]) := by
    have hreach : Reaches w all 1 1 [.act s] _ := reaches_test_clear_exit hplaced.tail hip
    rwa [if_neg (by simp), hplace] at hreach
  obtain ⟨n, t, -, hrun, hpc, hseen, hgoes⟩ :=
    hact.onward (htest.onward (reaches_label hplaced.tail.tail.tail.tail.tail))
      (start cpu) ⟨rfl, rfl, rfl⟩
  exact ⟨n, t, hrun, hseen, hgoes, fun _ => by rw [hpc, hall]; rfl⟩

theorem skipping_skips : ∃ ps k w cpu, skipping.compile {} = (.ok (), k) ∧ Lowers skipping {} ps k ∧
    Track.behaviour w ps cpu ≠ skipping.behaviour w.answers := by
  have hcompile := accepted_of_isOk (s := skipping) (k := {}) (by decide +kernel)
  obtain ⟨ps, h⟩ := compile_lowers skipping hcompile
  refine ⟨ps, _, .answering fun _ => true, ⟨fun _ => 0, fun _ => 0, 0⟩, hcompile, h, fun heq => ?_⟩
  obtain ⟨r, done, ls₁, ls₂, ls₃, hip, hps⟩ := skipping_pieces h
  have hends := skips (.answering fun _ => true) ⟨fun _ => 0, fun _ => 0, 0⟩ hps hip rfl
  rw [heq] at hends
  obtain ⟨fuel, -, hseen⟩ := hends
  exact nomatch hseen

end WordC
