import WordC.Proofs.CellLayout
import WordC.Proofs.Counting

/-!
# Counting loops

The loop `for (uint32 i = 0; i < n; i++) s` runs its body `n` times, with `i` from zero up to `n -
1`, if the body leaves `i` as it finds it and ends normally or with `continue`. The counter is a
word that wraps, it is read back through the scopes and compared as an unsigned number; the
invariant that ties it to the rounds is that the scope of the loop binds it to the number of rounds
made so far. What else the body does is left open, so it is asked to behave only in the machines
that this loop brings it to.
-/

namespace WordC

open Run Step

/-! ### What is declared -/

/-- The names of the variables and those of the arrays. -/
def Scope.names {τ : Type} (s : Scope τ) : (String → Bool) × (String → Bool) :=
  (fun x => s.vars.contains x, fun a => s.arrays.contains a)

namespace Chain

variable {τ : Type} {c c' : Chain τ} {s : Scope τ} {x a : String} {v : Int}

def names (c : Chain τ) : List ((String → Bool) × (String → Bool)) := c.map Scope.names

theorem names_cons (s : Scope τ) (c : Chain τ) : names (s :: c) = s.names :: c.names := rfl

theorem names_setVar (hx : s.vars.contains x = true) (v : Int) : (s.setVar x v).names = s.names :=
  Prod.ext (funext fun y => Scope.isSome_get?_set hx _ y) rfl

theorem names_withArray {elements : Array Int} (ha : s.arrays.get? a = some elements)
    (es : Array Int) : ({ s with arrays := s.arrays.set a es } : Scope τ).names = s.names := by
  have hsome : (s.arrays.get? a).isSome = true := by rw [ha]; rfl
  exact Prod.ext rfl (funext fun b => Scope.isSome_get?_set hsome es b)

theorem names_assign {t : Option τ} (h : c.assign x v t = .ok c') : c'.names = c.names := by
  induction c generalizing c' with
  | nil => cases h
  | cons s rest ih =>
    unfold assign at h
    split at h
    · next hx =>
      split at h
      all_goals
        obtain rfl := Except.ok.inj h
        exact congrArg (· :: names rest) (names_setVar hx v)
    · obtain ⟨rest', hassign, rfl⟩ := bind_return_ok h
      rw [names_cons, names_cons, ih hassign]

theorem Edited.names_eq (h : Edited c c') : c'.names = c.names := by
  refine h.map_eq fun s s' hedit => ?_
  cases hedit with
  | assign x v hx => exact names_setVar hx v
  | element a elements i v ha => exact names_withArray ha _
  | cell x _ =>
    unfold Scope.variableCell
    split <;> rfl

end Chain

/-- A step keeps what is declared in every scope. -/
def KeepsNames (m m' : Machine) : Prop :=
  m.scopes.Laid → m'.scopes.Laid ∧ m'.scopes.names = m.scopes.names

/-- The same around the innermost scope only. -/
def KeepsOuterNames (m m' : Machine) : Prop :=
  m.scopes.Laid → m'.scopes.Laid ∧ m'.scopes.names.tail = m.scopes.names.tail

theorem KeepsNames.refl (m : Machine) : KeepsNames m m := fun hm => ⟨hm, rfl⟩

theorem KeepsNames.trans {m₁ m₂ m₃ : Machine} (h₁ : KeepsNames m₁ m₂) (h₂ : KeepsNames m₂ m₃) :
    KeepsNames m₁ m₃ :=
  fun hm => ⟨(h₂ (h₁ hm).1).1, (h₂ (h₁ hm).1).2.trans (h₁ hm).2⟩

theorem KeepsOuterNames.trans {m₁ m₂ m₃ : Machine} (h₁ : KeepsOuterNames m₁ m₂)
    (h₂ : KeepsOuterNames m₂ m₃) : KeepsOuterNames m₁ m₃ :=
  fun hm => ⟨(h₂ (h₁ hm).1).1, (h₂ (h₁ hm).1).2.trans (h₁ hm).2⟩

variable {m m' : Machine} {c : Chain IntType} {v : Int}

theorem KeepsNames.outer (h : KeepsNames m m') : KeepsOuterNames m m' :=
  fun hm => ⟨(h hm).1, congrArg List.tail (h hm).2⟩

theorem keepsOuterNames_declare (m : Machine) (x : String) (v : Int) (t : IntType) :
    KeepsOuterNames m (Run.declare x v t m).2 := by
  intro hm
  cases hscopes : m.scopes with
  | nil =>
    rw [declare_nil hscopes]
    exact ⟨hm, by rw [hscopes]⟩
  | cons s rest =>
    rw [hscopes] at hm
    rw [declare_cons hscopes]
    exact ⟨(Chain.Changed.here (.declare x v t)).laid hm, rfl⟩

theorem keepsOuterNames_declareArray (m : Machine) (a : String) (size : Nat) :
    KeepsOuterNames m (Run.declareArray a size m).2 := by
  intro hm
  unfold Run.declareArray
  rw [changing_apply]
  cases hscopes : m.scopes with
  | nil => exact ⟨List.forall_mem_nil _, rfl⟩
  | cons s rest =>
    dsimp only
    cases hdeclared : s.declareArray a size with
    | error e => exact ⟨hm, congrArg (fun c => (Chain.names c).tail) hscopes⟩
    | ok declared =>
      rw [hscopes] at hm
      exact ⟨(Chain.Changed.here (.array a size declared.1 hdeclared)).laid hm, rfl⟩

theorem Scope.Opened.laid {s : Scope IntType} (h : s.Opened) : s.Laid := by
  obtain ⟨bindings, rfl⟩ := h
  exact List.foldlRecOn bindings _ Scope.laid_empty fun t ht b _ => ht.declare b.1 b.2 .uint32

theorem keepsNames_address {x : String} {n : Int} (h : m.scopes.address x = .ok (n, c)) :
    KeepsNames m { m with scopes := c } := by
  intro hm
  rcases Chain.edited_address h with rfl | hedited
  · exact ⟨hm, rfl⟩
  · exact ⟨hedited.changed.laid hm, hedited.names_eq⟩

theorem keepsNames_assign {x : String} {t : Option IntType}
    (h : m.scopes.assign x v t = .ok c) : KeepsNames m { m with scopes := c } :=
  fun hm => ⟨(Chain.changed_assign h).laid hm, Chain.names_assign h⟩

theorem keepsNames_setElement {a : String} {i : Int} (h : m.scopes.setElement a i v = .ok c) :
    KeepsNames m { m with scopes := c } :=
  fun hm => ⟨(Chain.edited_setElement h).changed.laid hm, (Chain.edited_setElement h).names_eq⟩

theorem keepsNames_store {a : Int} (h : m.scopes.store a v = .ok c) :
    KeepsNames m { m with scopes := c } :=
  fun hm => ⟨(hm.edited_store h).changed.laid hm, (hm.edited_store h).names_eq⟩

/-- What a step declares in a scope of its own goes with the scope. -/
theorem KeepsOuterNames.inside {s : Scope IntType} (hs : s.Opened)
    (h : KeepsOuterNames { m with scopes := s :: m.scopes } m') :
    KeepsNames m { m' with scopes := m'.scopes.tail } := by
  intro hm
  obtain ⟨hm', hnames⟩ := h (List.forall_mem_cons.mpr ⟨hs.laid, hm⟩)
  exact ⟨fun t ht => hm' t (List.mem_of_mem_tail ht), List.map_tail.trans hnames⟩

/-- Keeping names is a relation of runs. -/
def namesKept : RunRelation where
  expr := KeepsNames
  stmt := KeepsOuterNames
  expr_refl := KeepsNames.refl
  expr_trans := KeepsNames.trans
  stmt_trans := KeepsOuterNames.trans
  stmt_of_expr := KeepsNames.outer
  address := keepsNames_address
  devices := fun m _ => KeepsNames.refl m
  declare := keepsOuterNames_declare
  declareArray := keepsOuterNames_declareArray
  registers := fun m _ _ _ => (KeepsNames.refl m).outer
  assign := fun _ h => (keepsNames_assign h).outer
  setElement := fun h => (keepsNames_setElement h).outer
  store := fun h => (keepsNames_store h).outer
  warned := fun m => (KeepsNames.refl m).outer
  inside := KeepsOuterNames.inside

/-- The scopes of every state that a run passes through are laid out. -/
theorem Machine.Reached.laid {p : Program} (h : m.Reached p) : m.scopes.Laid := by
  induction h with
  | start => exact List.forall_mem_singleton.mpr Scope.laid_empty
  | global fuel d _ ih => exact (namesKept.global_stmt (namesKept.calls_careful p fuel) d _ ih).1
  | eval fuel e _ ih => exact (namesKept.eval_expr (namesKept.calls_careful p fuel) e _ ih).1
  | exec fuel rounds s _ ih =>
    exact (namesKept.exec_stmt (namesKept.calls_careful p fuel) rounds s _ ih).1
  | opened hs _ ih => exact List.forall_mem_cons.mpr ⟨hs.laid, ih⟩
  | closed _ ih => exact fun s hs => ih s (List.mem_of_mem_tail hs)

/-! ### Rounds -/

namespace Run

variable {test : Run Bool} {body step : Run Unit} {m m' : Machine} {ms : List Machine}

/-- One round of a loop with a head: whether the loop goes on. -/
def headRound (test : Run Bool) (body step : Run Unit) : Run Bool := do
  if !(← test) then return false
  if !(← attempt body) then return false
  step
  return true

theorem headRound_over (htest : test m = (.ok false, m')) :
    headRound test body step m = (.ok false, m') := by
  unfold headRound
  rw [bind_ok htest]
  rfl

theorem headRound_again {m₁ m₂ m₃ : Machine} (htest : test m = (.ok true, m₁))
    (hbody : attempt body m₁ = (.ok true, m₂)) (hstep : step m₂ = (.ok (), m₃)) :
    headRound test body step m = (.ok true, m₃) := by
  unfold headRound
  rw [bind_ok htest]
  show (attempt body >>= _) m₁ = _
  rw [bind_ok hbody]
  show (step >>= _) m₂ = _
  rw [bind_ok hstep]
  rfl

/-- The rounds of a loop that ends because its test says no. The list has the machines in which the
body is run. -/
inductive Rounds (test : Run Bool) (body step : Run Unit) : Machine → List Machine → Machine → Prop
  | ended {m m' : Machine} : test m = (.ok false, m') → Rounds test body step m [] m'
  | again {m m₁ m₂ m₃ m' : Machine} {ms : List Machine} :
      test m = (.ok true, m₁) → attempt body m₁ = (.ok true, m₂) →
      step m₂ = (.ok (), m₃) → Rounds test body step m₃ ms m' →
      Rounds test body step m (m₁ :: ms) m'

/-- A loop makes the rounds there are, if its bound allows. -/
theorem Rounds.iterate (h : Rounds test body step m ms m') {fuel : Nat} (hfuel : ms.length < fuel) :
    iterate (headRound test body step) fuel m = (.ok (), m') := by
  induction h generalizing fuel with
  | ended htest =>
    cases fuel with
    | zero => exact absurd hfuel (Nat.not_lt_zero _)
    | succ fuel =>
      rw [Run.iterate, bind_ok (headRound_over htest)]
      rfl
  | again htest hbody hstep _ ih =>
    cases fuel with
    | zero => exact absurd hfuel (Nat.not_lt_zero _)
    | succ fuel =>
      rw [Run.iterate, bind_ok (headRound_again htest hbody hstep)]
      exact ih (Nat.lt_of_succ_lt_succ hfuel)

/-- The rounds of a loop are determined by where it starts. -/
theorem Rounds.unique (h : Rounds test body step m ms m') {ms' : List Machine} {m'' : Machine}
    (h' : Rounds test body step m ms' m'') : ms' = ms ∧ m'' = m' := by
  induction h generalizing ms' m'' with
  | ended htest =>
    cases h' with
    | ended htest' => exact ⟨rfl, (Prod.mk.inj (htest'.symm.trans htest)).2⟩
    | again htest' _ _ _ => cases htest'.symm.trans htest
  | again htest hbody hstep _ ih =>
    cases h' with
    | ended htest' => cases htest'.symm.trans htest
    | again htest' hbody' hstep' hrest' =>
      obtain rfl := (Prod.mk.inj (htest'.symm.trans htest)).2
      obtain rfl := (Prod.mk.inj (hbody'.symm.trans hbody)).2
      obtain rfl := (Prod.mk.inj (hstep'.symm.trans hstep)).2
      obtain ⟨rfl, rfl⟩ := ih hrest'
      exact ⟨rfl, rfl⟩

end Run

/-! ### The counter -/

/-- The innermost scope binds a name to a number as an unsigned variable, and no register is bound
to it. -/
structure Machine.Counts (m : Machine) (i : String) (k : Nat) : Prop where
  unbound : m.registerNames.get? i = none
  bound : ∃ s outer, m.scopes = s :: outer ∧ s.vars.get? i = some (k : Int) ∧
    s.types.get? i = some .uint32

/-- The machine in which the rounds of a counting loop start. -/
def Machine.counting (m : Machine) (i : String) : Machine :=
  { m with scopes := ({} : Scope IntType).declare i 0 .uint32 :: m.scopes }

/-- The test `i < n`. -/
def Expr.lessThan (i : String) (n : Nat) : Expr := .binary .less (.name i) (.literal n)

/-- The loop `for (uint32 i = 0; i < n; i++) s`. -/
def Stmt.counting (i : String) (n : Nat) (s : Stmt) : Stmt :=
  .forLoop (some (.declare { name := i, init := some (.literal 0) })) (some (.lessThan i n))
    (some (.increment i false)) s

section Counter

variable {m : Machine} {i : String} {k n : Nat} {calls : Calls}

theorem Machine.counts_counting (h : m.registerNames.get? i = none) : (m.counting i).Counts i 0 :=
  ⟨h, _, m.scopes, rfl, Table.get?_set_self _ _ _, Table.get?_set_self _ _ _⟩

theorem wrap_natCast (h : k < 4294967296) : Word.wrap (k : Int) = k :=
  Word.wrap_of_range (by omega) (by unfold Word.modulus; omega)

theorem Machine.Counts.read (h : m.Counts i k) (hk : k < 4294967296) :
    readVariable i m = (.ok ⟨k, .uint32⟩, m) := by
  obtain ⟨s, outer, hscopes, hvar, htype⟩ := h.bound
  have hget : m.scopes.get i = .ok (k : Int) := by rw [hscopes, Chain.get, hvar]
  have htypeOf : m.scopes.typeOf? i = some .uint32 := by rw [hscopes, Chain.typeOf?, htype]
  rw [readVariable_of_get h.unbound hget, htypeOf, wrap_natCast hk]
  rfl

theorem Machine.Counts.test (h : m.Counts i k) (hk : k < 4294967296) (hn : n < 4294967296) :
    truth calls (.lessThan i n) m = (.ok (decide (k < n)), m) := by
  have hleft : (Expr.name i).eval calls m = (.ok ⟨k, .uint32⟩, m) := by rw [Expr.eval, h.read hk]
  have hright : (Expr.literal n).eval calls m = (.ok ⟨n, .uint32⟩, m) := by
    rw [Expr.eval, wrap_natCast hn]
    rfl
  have hless :
      BinOp.less.apply ⟨k, .uint32⟩ ⟨n, .uint32⟩ = .ok ⟨if k < n then 1 else 0, .uint32⟩ := by
    by_cases hkn : k < n
    · simp [BinOp.apply, BinOp.result?, BinOp.operand, BinOp.resultType, BinOp.isTest,
        IntType.normal, hkn]
      rfl
    · simp [BinOp.apply, BinOp.result?, BinOp.operand, BinOp.resultType, BinOp.isTest,
        IntType.normal, hkn]
      rfl
  have hwhole : (Expr.lessThan i n).eval calls m = (.ok ⟨if k < n then 1 else 0, .uint32⟩, m) := by
    rw [Expr.lessThan, Expr.eval, bind_ok hleft, bind_ok hright, hless]
    rfl
  rw [truth, bind_ok hwhole]
  by_cases hkn : k < n
  · simp only [hkn, if_true, decide_true]
    rfl
  · simp only [hkn, if_false, decide_false]
    rfl

/-- Counting up goes to the next number, as long as that is a word. -/
theorem Machine.Counts.bump (h : m.Counts i k) (hk : k + 1 < 4294967296) :
    ∃ m', bump i 1 m = (.ok (), m') ∧ m'.Counts i (k + 1) := by
  obtain ⟨s, outer, hscopes, hvar, htype⟩ := h.bound
  have hget : m.scopes.get i = .ok (k : Int) := by rw [hscopes, Chain.get, hvar]
  have hassign : m.scopes.assign i (k + 1) none = .ok (s.setVar i (k + 1) :: outer) := by
    rw [hscopes, Chain.assign, Table.contains, hvar]
    rfl
  refine ⟨{ m with scopes := s.setVar i (k + 1) :: outer }, ?_, h.unbound, s.setVar i (k + 1),
    outer, rfl, ?_, htype⟩
  · rw [bump_of_get hget, changing_apply, hassign]
  · show (s.vars.set i (Word.wrap ((k + 1 : Nat) : Int))).get? i = _
    rw [Table.get?_set_self, wrap_natCast hk]

end Counter

/-! ### The loop -/

/-- How a statement ends in a program, whatever the bounds are from some size on. -/
def Stmt.Runs (p : Program) (s : Stmt) (m : Machine) (r : Except Signal Unit)
    (m' : Machine) : Prop :=
  ∃ bound, ∀ depth fuel, bound ≤ depth → bound ≤ fuel → s.exec (p.calls depth) fuel m = (r, m')

/-- A body that ends so lets the loop go on. -/
def GoesOn (r : Except Signal Unit) : Prop := r = .ok () ∨ r = .error .continueLoop

/-- The machines in which the body of a counting loop may be run: the first one, and those behind a
round. -/
inductive Stmt.Visits (p : Program) (s : Stmt) (i : String) (start : Machine) : Machine → Prop
  | first : Visits p s i start start
  | next {m m₁ m₂ : Machine} {r : Except Signal Unit} :
      Visits p s i start m → s.Runs p m r m₁ → GoesOn r →
      bump i 1 m₁ = (.ok (), m₂) → Visits p s i start m₂

theorem GoesOn.attempt {body : Run Unit} {r : Except Signal Unit} (hr : GoesOn r)
    (h : body m = (r, m')) : attempt body m = (.ok true, m') := by
  unfold Run.attempt
  rw [h]
  rcases hr with rfl | rfl <;> rfl

/-- The loop opens a scope, declares its counter there and makes its rounds. -/
theorem exec_counting {calls : Calls} {fuel n : Nat} {i : String} {s : Stmt}
    (h : iterate (headRound (truth calls (.lessThan i n)) (s.exec calls fuel) (bump i 1)) fuel
      (m.counting i) = (.ok (), m')) :
    (Stmt.counting i n s).exec calls fuel m = (.ok (), { m' with scopes := m'.scopes.tail }) := by
  have hinit : forInit calls (.declare { name := i, init := some (.literal 0) }) { m with
        scopes := {} :: m.scopes } =
      (.ok (), m.counting i) := rfl
  have hinside : (forInit calls (.declare { name := i, init := some (.literal 0) }) >>= fun _ =>
      iterate (headRound (truth calls (.lessThan i n)) (s.exec calls fuel) (bump i 1)) fuel)
        { m with scopes := {} :: m.scopes } = (.ok (), m') := by
    rw [bind_ok hinit]
    exact h
  rw [Stmt.counting, Stmt.exec]
  show inside {} (forInit calls (.declare { name := i, init := some (.literal 0) }) >>= fun _ =>
      iterate (headRound (truth calls (.lessThan i n)) (s.exec calls fuel) (bump i 1)) fuel) m = _
  unfold inside
  rw [hinside]

theorem names_counting {p : Program} {depth fuel n : Nat} {i : String}
    {s : Stmt} (h : m.scopes.Laid) :
    ((Stmt.counting i n s).exec (p.calls depth) fuel m).2.scopes.names = m.scopes.names :=
  have hcalls := namesKept.calls_careful p depth
  (namesKept.forLoop_expr hcalls _ _ _ (namesKept.exec_stmt hcalls fuel s) m h).2

section Loop

variable {p : Program} {s : Stmt} {i : String} {n : Nat} {start : Machine} (hn : n < 4294967296)
  (hbody : ∀ k m, k < n → s.Visits p i start m → m.Counts i k →
  ∃ r m', s.Runs p m r m' ∧ GoesOn r ∧ m'.Counts i k)
include hn hbody

/-- From a machine in which the counter is `k` the loop makes the rounds that are left. The
induction goes over their number. -/
theorem rounds_left (left : Nat) : ∀ (k : Nat) (m : Machine), k + left = n → s.Visits p i start m →
    m.Counts i k → ∃ ms m' bound, ms.length = left ∧
    (∀ (l : Nat) (mₗ : Machine), ms[l]? = some mₗ → mₗ.Counts i (k + l)) ∧
      ∀ depth fuel, bound ≤ depth → bound ≤ fuel →
        Rounds (truth (p.calls depth) (.lessThan i n)) (s.exec (p.calls depth) fuel)
        (bump i 1) m ms m' := by
  induction left with
  | zero =>
    intro k m hk hvisits hcounts
    refine ⟨[], m, 0, rfl, ?_, ?_⟩
    · intro l mₗ hl
      cases hl
    intro depth fuel _ _
    refine .ended ?_
    rw [hcounts.test (by omega) hn, decide_eq_false (by omega)]
  | succ left ih =>
    intro k m hk hvisits hcounts
    obtain ⟨r, m₁, ⟨bound, hruns⟩, hr, hkept⟩ := hbody k m (by omega) hvisits hcounts
    obtain ⟨m₂, hbump, hcounts₂⟩ := hkept.bump (by omega)
    have hvisits₂ : s.Visits p i start m₂ := .next hvisits ⟨bound, hruns⟩ hr hbump
    obtain ⟨ms, m', bound', hlength, hstates, hrounds⟩ := ih (k + 1) m₂ (by omega) hvisits₂ hcounts₂
    refine ⟨m :: ms, m', max bound bound', by rw [List.length_cons, hlength], ?_, ?_⟩
    · intro l mₗ hl
      cases l with
      | zero => exact Option.some.inj hl ▸ hcounts
      | succ l => exact (show k + 1 + l = k + (l + 1) by omega) ▸ hstates l mₗ hl
    · intro depth fuel hdepth hfuel
      refine .again ?_ (hr.attempt (hruns depth fuel (by omega) (by omega))) hbump
        (hrounds depth fuel (by omega) (by omega))
      rw [hcounts.test (by omega) hn, decide_eq_true (by omega)]

end Loop

/-- A counting loop whose body leaves the counter alone and lets the loop go on ends normally. It
runs its body in exactly `n` machines, in which the counter is `0`, `1` and so on up to `n - 1`. If
the scopes around it are laid out, as they are in every state that a run passes through, then it
declares nothing there. The bounds of the runner play no part from some size on. -/
theorem counting_loop_runs {p : Program} {s : Stmt} {i : String} {n : Nat} {m : Machine}
    (hn : n < 4294967296) (hregister : m.registerNames.get? i = none)
    (hbody : ∀ k m₁, k < n → s.Visits p i (m.counting i) m₁ → m₁.Counts i k →
      ∃ r m₂, s.Runs p m₁ r m₂ ∧ GoesOn r ∧ m₂.Counts i k) :
    ∃ ms m' bound, ms.length = n ∧
      (∀ (k : Nat) (m₁ : Machine), ms[k]? = some m₁ → m₁.Counts i k) ∧
      (m.scopes.Laid → Chain.names m'.scopes.tail = m.scopes.names) ∧
      ∀ depth fuel, bound ≤ depth → bound ≤ fuel →
        (Stmt.counting i n s).exec (p.calls depth) fuel m =
          (.ok (), { m' with scopes := m'.scopes.tail }) ∧
        ∀ ms' m'', Rounds (truth (p.calls depth) (.lessThan i n)) (s.exec (p.calls depth) fuel)
          (bump i 1) (m.counting i) ms' m'' ↔ ms' = ms ∧ m'' = m' := by
  obtain ⟨ms, m', bound, hlength, hstates, hrounds⟩ :=
    rounds_left hn hbody n 0 (m.counting i) (by omega) .first (m.counts_counting hregister)
  have hexec (depth fuel : Nat) (hdepth : bound ≤ depth) (hfuel : bound + n < fuel) :
      (Stmt.counting i n s).exec (p.calls depth) fuel m =
        (.ok (), { m' with scopes := m'.scopes.tail }) :=
    exec_counting ((hrounds depth fuel hdepth (by omega)).iterate (by omega))
  refine ⟨ms, m', bound + n + 1, hlength, fun k m₁ hk => ?_, fun hscopes => ?_,
    fun depth fuel hdepth hfuel => ⟨?_, fun ms' m'' => ⟨?_, ?_⟩⟩⟩
  · have := hstates k m₁ hk
    rwa [Nat.zero_add] at this
  · have hend := hexec (bound + n + 1) (bound + n + 1) (by omega) (by omega)
    rw [← names_counting hscopes, hend]
  · exact hexec depth fuel (by omega) (by omega)
  · exact (hrounds depth fuel (by omega) (by omega)).unique
  · rintro ⟨rfl, rfl⟩
    exact hrounds depth fuel (by omega) (by omega)

/-- The body `{ t = i; continue; }`. -/
def noting : Stmt := .block [.assign "t" (.name "i"), .continueLoop]

/-- A machine with `i` in the scope of a loop and `t` around it. -/
def notingAt (i t : Int) : Machine :=
  { scopes := [{ vars := ⟨[("i", i)]⟩, types := ⟨[("i", .uint32)]⟩ },
      { vars := ⟨[("t", t)]⟩, types := ⟨[("t", .uint32)]⟩ }] }

theorem noting_runs (i t : Int) : noting.Runs ⟨[], []⟩ (notingAt i t) (.error .continueLoop)
    (notingAt i (Word.wrap (Word.wrap i))) :=
  ⟨0, fun _ _ _ _ => rfl⟩

/-- The loop `for (uint32 i = 0; i < 3; i++) { t = i; continue; }` behind `uint32 t = 7;`. -/
theorem noting_counts :
    ∃ (m : Machine) (ms : List Machine) (m' : Machine) (bound : Nat),
      m.Reached ⟨[], []⟩ ∧ ms.length = 3 ∧
      (∀ (k : Nat) (m₁ : Machine), ms[k]? = some m₁ → m₁.Counts "i" k) ∧
      Chain.names m'.scopes.tail = m.scopes.names ∧
      ∀ depth fuel, bound ≤ depth → bound ≤ fuel →
        (Stmt.counting "i" 3 noting).exec (Program.calls ⟨[], []⟩ depth) fuel m =
          (.ok (), { m' with scopes := m'.scopes.tail }) := by
  let m : Machine := { scopes := [({} : Scope IntType).declare "t" 7 .uint32] }
  have hreached : m.Reached ⟨[], []⟩ :=
    .exec 0 0 (.decl (.var { name := "t", init := some (.literal 7) })) .start
  have hvisits (m₁ : Machine) (h : noting.Visits ⟨[], []⟩ "i" (m.counting "i") m₁) :
      ∃ i t, m₁ = notingAt i t := by
    induction h with
    | first => exact ⟨0, 7, rfl⟩
    | next _ hruns _ hbump ih =>
      obtain ⟨i, t, rfl⟩ := ih
      obtain ⟨bound, hruns⟩ := hruns
      obtain ⟨bound', hruns'⟩ := noting_runs i t
      have hend :=
        (hruns _ _ (Nat.le_max_left bound bound') (Nat.le_max_left bound bound')).symm.trans
        (hruns' _ _ (Nat.le_max_right bound bound') (Nat.le_max_right bound bound'))
      obtain ⟨-, rfl⟩ := Prod.mk.inj hend
      obtain ⟨-, rfl⟩ := Prod.mk.inj hbump
      exact ⟨_, _, rfl⟩
  obtain ⟨ms, m', bound, hlength, hstates, hnames, hexec⟩ :=
    counting_loop_runs (n := 3) (m := m) (i := "i") (s := noting) (p := ⟨[], []⟩)
    (by decide) rfl (by
      intro k m₁ _ hvisited hcounts
      obtain ⟨i, t, rfl⟩ := hvisits m₁ hvisited
      obtain ⟨hunbound, s, outer, hscopes, hvar, htype⟩ := hcounts
      obtain ⟨rfl, rfl⟩ := List.cons.inj hscopes
      exact ⟨_, _, noting_runs i t, .inr rfl, hunbound, _, _, rfl, hvar, htype⟩)
  exact ⟨m, ms, m', bound, hreached, hlength, hstates, hnames hreached.laid,
    fun depth fuel hdepth hfuel => (hexec depth fuel hdepth hfuel).1⟩

end WordC
