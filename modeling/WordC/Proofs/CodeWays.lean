import WordC.Proofs.FunctionCode
import WordC.Proofs.Ways

/-!
# Ways through the code of expressions and single statements

The code of an expression is passed: its ways lead to the line behind it and nowhere else, over
loops that are its own and calls that come back. So is the code of a statement that holds no others,
unless the statement is a return, or writes the register of jumps under its own name.
-/

namespace WordC

open Asm Compile Step

/-! ### Labels of their own -/

/-- The labels among the lines have numbers from `m` on and below `m'`, but for those that calls
come back to. -/
structure Numbered (m : Nat) (ls : List Line) (m' : Nat) : Prop where
  le : m ≤ m'
  labels : ∀ stem n, .label (.minted stem n) ∈ ls → stem ≠ .retAddr → m ≤ n ∧ n < m'

/-- Lines that stand somewhere in a listing, with no label before them that has a number from `m`
on. -/
structure Stands (code : List Line) (pos m : Nat) (ls : List Line) : Prop where
  placed : Placed code pos ls
  free : ∀ stem n, stem ≠ .retAddr → m ≤ n → .label (.minted stem n) ∉ code.take pos

section Labels

variable {m m' m₁ m₂ n pos : Nat} {code xs ys : List Line} {l : Line} {stem : Stem}

theorem Numbered.append (hxs : Numbered m xs m₁) (hys : Numbered m₁ ys m₂) :
    Numbered m (xs ++ ys) m₂ where
  le := Nat.le_trans hxs.le hys.le
  labels stem n hl hstem := by
    have hle := hxs.le
    have hle' := hys.le
    rcases List.mem_append.mp hl with hl | hl
    · have := hxs.labels stem n hl hstem
      omega
    · have := hys.labels stem n hl hstem
      omega

theorem Numbered.not_mem (h : Numbered m xs m') (stem : Stem) (n : Nat) (hstem : stem ≠ .retAddr)
    (hn : n < m ∨ m' ≤ n) : .label (.minted stem n) ∉ xs := by
  intro hmem
  have := h.labels stem n hmem hstem
  omega

namespace Stands

theorem mono (h : Stands code pos m xs) (hm : m ≤ m') : Stands code pos m' xs :=
  ⟨h.placed, fun stem n hstem hn => h.free stem n hstem (Nat.le_trans hm hn)⟩

theorem front (h : Stands code pos m (xs ++ ys)) : Stands code pos m xs :=
  ⟨h.placed.append.1, h.free⟩

theorem back (h : Stands code pos m (xs ++ ys)) (hm : m ≤ m')
    (hxs : ∀ stem n, m' ≤ n → stem ≠ .retAddr → .label (.minted stem n) ∉ xs) :
    Stands code (pos + xs.length) m' ys where
  placed := h.placed.append.2
  free stem n hstem hn hmem := by
    rw [List.take_add, ← List.prefix_iff_eq_take.mp h.placed.append.1] at hmem
    rcases List.mem_append.mp hmem with hmem | hmem
    · exact h.free stem n hstem (Nat.le_trans hm hn) hmem
    · exact hxs stem n hn hstem hmem

theorem behind (h : Stands code pos m (xs ++ ys)) (hxs : Numbered m xs m') :
    Stands code (pos + xs.length) m' ys :=
  h.back hxs.le fun stem n hn hstem => hxs.not_mem stem n hstem (.inr hn)

theorem head (h : Stands code pos m (l :: xs)) : code[pos]? = some l := h.placed.head

theorem tail (h : Stands code pos m (l :: xs))
    (hl : ∀ stem n, l = .label (.minted stem n) → n < m) : Stands code (pos + 1) m xs := by
  have hsplit : Stands code pos m ([l] ++ xs) := h
  refine hsplit.back (Nat.le_refl m) fun stem n hn _ hmem => ?_
  have := hl stem n (List.mem_singleton.mp hmem).symm
  omega

/-- Behind an instruction. -/
theorem next {i : Instr} (h : Stands code pos m (.instr i :: xs)) : Stands code (pos + 1) m xs :=
  h.tail fun _ _ heq => by cases heq

/-- The line of a label that stands among the lines. -/
theorem lineOf_eq (xs ys : List Line) (h : Stands code pos m (xs ++ .label (.minted stem n) :: ys))
    (hstem : stem ≠ .retAddr) (hn : m ≤ n) (hxs : .label (.minted stem n) ∉ xs) :
    lineOf code (.minted stem n) = pos + xs.length := by
  rw [h.placed.lineOf_eq (by simp) (h.free stem n hstem hn), List.idxOf_append_of_notMem hxs,
    List.idxOf_cons_self, Nat.add_zero]

end Stands

end Labels

/-! ### Code that is passed -/

/-- Lines that lead to the line behind them, wherever they stand, if the labels before them have
smaller numbers. -/
structure Crossing (m : Nat) (ls : List Line) (m' : Nat) : Prop extends Numbered m ls m' where
  leaves : ∀ code pos, Stands code pos m ls →
    Leaves code pos (pos + ls.length) (· = pos + ls.length)

def crossing : Layout := fun _ m ls _ m' => Crossing m ls m'

namespace Crossing

variable {m m' m₁ m₂ labels : Nat} {placed : List Label} {code xs ys ls : List Line} {l : Line}

theorem nil (hm : m ≤ m') : Crossing m [] m' where
  le := hm
  labels _ _ hl := absurd hl List.not_mem_nil
  leaves _ pos _ := .nil pos

theorem append (hxs : Crossing m xs m₁) (hys : Crossing m₁ ys m₂) : Crossing m (xs ++ ys) m₂ where
  toNumbered := hxs.toNumbered.append hys.toNumbered
  leaves code pos h := by
    have hleaves := hys.leaves code _ (h.behind hxs.toNumbered)
    rw [List.length_append, ← Nat.add_assoc]
    exact (hxs.leaves code pos h.front).prepend hleaves (by omega) (by omega) (by omega)

theorem single (hlabel : ∀ stem n, l = .label (.minted stem n) → stem = .retAddr)
    (hmoves : ∀ code p q, code[p]? = some l → (Moves code p q ↔ q = p + 1)) : Crossing m [l] m where
  le := Nat.le_refl m
  labels stem n hl hstem := absurd (hlabel stem n (List.mem_singleton.mp hl).symm) hstem
  leaves code pos h := .line fun q => hmoves code pos q h.head

theorem instr {i : Instr} (hi : i.target? ≠ some ip) (hhalt : i ≠ .halt) :
    Crossing m [.instr i] m :=
  single (fun _ _ heq => by cases heq) fun _ _ _ hl => moves_goesOn hl ⟨hi, hhalt⟩

theorem put {i : Instr} {d : Nat} (hi : i.target? = some d) (hd : d ≠ ip) :
    Crossing m [.instr i] m := by
  refine instr (fun heq => hd (Option.some.inj (hi.symm.trans heq))) ?_
  rintro rfl
  cases hi

end Crossing

/-! ### The code of an operator -/

namespace OperatorLine

variable {m labels p q : Nat} {placed : List Label} {code : List Line} {l : Line}

/-- What can come behind a line of an operator: the next one, or a label of the operator. -/
theorem moves_cases (h : OperatorLine m labels placed l) (hl : code[p]? = some l)
    (hmoves : Moves code p q) : q = p + 1 ∨ ∃ stem n, stem.isInner = true ∧
    .minted stem (m + n) ∈ placed ∧ q = lineOf code (.minted stem (m + n)) := by
  cases h with
  | put hi hr =>
    refine .inl ((moves_goesOn hl ⟨fun heq => ?_, ?_⟩).mp hmoves)
    · exact (plain hi hr ip heq).2 rfl
    · rintro rfl
      cases hi
  | label => exact .inl ((moves_goesOn hl trivial).mp hmoves)
  | @jump _ stem n hjump hstem hmem =>
    rcases (moves_jumpsTo hl hjump rfl).mp hmoves with ⟨-, rfl⟩ | rfl
    · exact .inl rfl
    · exact .inr ⟨stem, n, hstem, hmem, rfl⟩

/-- A line that does not always jump goes on in some state. -/
theorem moves_next (h : OperatorLine m labels placed l) (hl : code[p]? = some l)
    (hjump : l.isJump = false) : Moves code p (p + 1) := by
  cases h with
  | put hi hr =>
    refine (moves_goesOn hl ⟨fun heq => (plain hi hr ip heq).2 rfl, ?_⟩).mpr rfl
    rintro rfl
    cases hi
  | label => exact (moves_goesOn hl trivial).mpr rfl
  | jump hto => exact (moves_jumpsTo hl hto rfl).mpr (.inl ⟨hjump, rfl⟩)

theorem jump_target {a : Label} (h : OperatorLine m labels placed l) (hjump : l.jumpsTo? = some a) :
    ∃ stem n, stem.isInner = true ∧ a = .minted stem (m + n) ∧ a ∈ placed := by
  cases h with
  | @put i r hi hr =>
    have htarget : (Line.instr i).target? = some ip := by
      obtain heq | ⟨c, heq | heq⟩ := Line.jump_cases hjump <;> exact heq ▸ rfl
    exact absurd rfl (plain hi hr ip htarget).2
  | label => cases hjump
  | @jump _ stem n hto hstem hmem =>
    cases hjump.symm.trans hto
    exact ⟨stem, n, hstem, rfl, hmem⟩

end OperatorLine

section Operator

variable {m labels pos : Nat} {placed : List Label} {code ls : List Line}
  (hls : ∀ l ∈ ls, OperatorLine m labels placed l) (hinside : ∀ l ∈ placed, .label l ∈ ls)
  (hstands : Stands code pos m ls)

include hls hinside hstands

omit hls in
theorem lineOf_operator {stem : Stem} {n : Nat} (hstem : stem.isInner = true)
    (hmem : .minted stem (m + n) ∈ placed) :
    lineOf code (.minted stem (m + n)) = pos + ls.idxOf (.label (.minted stem (m + n))) := by
  refine hstands.placed.lineOf_eq (hinside _ hmem) (hstands.free stem _ ?_ (Nat.le_add_right m n))
  rintro rfl
  cases hstem

/-- The loops of an operator do not lead out of its code. -/
theorem part_operator : Part code pos (pos + ls.length) (· = pos + ls.length) := by
  refine .closed (Nat.le_add_right _ _) fun p q hp hp' hmoves => ?_
  obtain ⟨i, rfl⟩ := Nat.exists_eq_add_of_le hp
  have hi : i < ls.length := by omega
  rcases (hls _ (List.getElem_mem hi)).moves_cases (hstands.placed.get hi) hmoves
    with rfl | ⟨stem, n, hstem, hmem, rfl⟩
  · omega
  · rw [lineOf_operator hinside hstands hstem hmem]
    have hidx := List.idxOf_le_length (a := Line.label (.minted stem (m + n))) (l := ls)
    omega

theorem Crosses.way {i : Nat} (h : Crosses ls i) :
    Way code pos (pos + ls.length) (pos + i) (pos + ls.length) := by
  induction h with
  | ends => exact .refl
  | @next i l hget hjump _ ih =>
    obtain ⟨hi, rfl⟩ := List.getElem?_eq_some_iff.mp hget
    refine (Way.single (by omega) ?_).trans ih
    exact (hls _ (List.getElem_mem hi)).moves_next (hstands.placed.get hi) hjump
  | @jump i j l a hget hjump hidx _ ih =>
    obtain ⟨hi, rfl⟩ := List.getElem?_eq_some_iff.mp hget
    obtain ⟨stem, n, hstem, rfl, hmem⟩ := (hls _ (List.getElem_mem hi)).jump_target hjump
    refine (Way.single (by omega) ?_).trans ih
    rw [← hidx, ← lineOf_operator hinside hstands hstem hmem]
    exact (moves_jumpsTo (hstands.placed.get hi) hjump rfl).mpr (.inr rfl)

end Operator

theorem Crossing.operator {m labels : Nat} {placed : List Label} {ls : List Line}
    (hls : ∀ l ∈ ls, OperatorLine m labels placed l) (hinside : ∀ l ∈ placed, .label l ∈ ls)
    (hcrosses : Crosses ls 0) : Crossing m ls (m + labels) where
  le := Nat.le_add_right _ _
  labels stem n hl _ := by
    cases hls _ hl with
    | label _ hlt => exact ⟨Nat.le_add_right _ _, Nat.add_lt_add_left hlt _⟩
    | jump hjump => cases hjump
  leaves code pos hstands := by
    refine ⟨part_operator hls hinside hstands, fun q hq => ?_⟩
    rw [hq]
    exact hcrosses.way hls hinside hstands

instance crossing.exprLayout : ExprLayout crossing where
  nil := Crossing.nil
  append := Crossing.append
  put hi hd := Crossing.put hi (Nat.ne_of_lt (Nat.lt_trans hd (by decide)))
  quiet hi := Crossing.instr
    (by rw [Instr.target?_of_isQuiet hi]; exact Option.some_ne_none ip |>.symm)
    (by rintro rfl; cases hi)
  back n := Crossing.single (fun _ _ heq => by cases heq; rfl) fun _ _ _ hl =>
    moves_goesOn hl trivial
  push r := .append (.put rfl (by decide))
    (.instr (fun heq => by cases heq) fun heq => by cases heq)
  drop k hn :=
    .append (.put rfl (Nat.ne_of_lt (Nat.lt_trans hn (by decide)))) (.put rfl (by decide))
  call hf := Crossing.single (fun _ _ heq => by cases heq) fun _ _ _ hl => moves_call hl hf
  operator := Crossing.operator

/-! ### Statements that hold no others -/

/-- A name that reads like the register of jumps. -/
def namesIp (x : String) : Bool := (registerDigits? x).bind Text.decimalNumeral? == some ip

/-- What the compiler relies on inside a function, or outside of all: no variable has the register
of jumps. -/
structure Compiler.Inside (current : Option String) (returned : Bool) (k : Compiler) : Prop where
  current : k.current = current
  registers : ∀ x r, k.pool.allocated.get? x = some r → r ≠ ip
  returned : k.returned = returned

namespace Compile

variable {f : Option String} {b : Bool}

/-- A step whose lines are passed. -/
abbrev Passes {α : Type} (f : Option String) (b : Bool) (x : Compile α) (P : α → Prop) : Prop :=
  Lays (Compiler.Inside f b) crossing 0 x 0 P

theorem passes_write {i : Instr} {d : Reg} (hi : i.target? = some d) (hd : d ≠ ip) :
    Passes f b (emit i) fun _ => True :=
  lays_line fun _ => Crossing.put hi hd

theorem passes_moveTo {d : Reg} (hd : d ≠ ip) (r : Reg) : Passes f b (move d r) fun _ => True :=
  lays_ite (passes_write rfl hd) (lays_return ())

theorem passes_initTo {d : Reg} (hd : d ≠ ip) (e : Expr) : Passes f b (initTo d e) fun _ => True :=
  lays_bind (e.lays_compile 0) fun r _ => passes_moveTo hd r

/-- A change of what is stored where. -/
theorem passes_places {g : Compiler → Compiler}
    (hg : ∀ k, (g k).pool = k.pool ∧ (g k).functions = k.functions ∧ (g k).current = k.current ∧
      (g k).returned = k.returned ∧ (g k).code = k.code ∧ (g k).labelCount = k.labelCount) :
    Passes f b (modify g) fun _ => True := by
  refine lays_modify (fun k hk => ?_) fun k => ⟨(hg k).2.2.2.2.1, (hg k).2.2.2.2.2⟩
  obtain ⟨hpool, hfunctions, hcurrent, hreturned, -, -⟩ := hg k
  refine ⟨hpool ▸ hk.turning, hfunctions ▸ hk.functions,
    ⟨hcurrent.trans hk.other.current, ?_, hreturned.trans hk.other.returned⟩⟩
  show ∀ x r, (g k).pool.allocated.get? x = some r → r ≠ ip
  exact hpool ▸ hk.other.registers

theorem allocate?_ne_ip {p p' : RegPool} {x : String} {r : Reg}
    (hp : ∀ x r, p.allocated.get? x = some r → r ≠ ip) (h : p.allocate? x = some (r, p')) :
    r ≠ ip ∧ p'.nextTemp = p.nextTemp ∧ ∀ x r, p'.allocated.get? x = some r → r ≠ ip := by
  unfold RegPool.allocate? at h
  split at h
  · next hr' =>
    cases h
    exact ⟨hp x r hr', rfl, hp⟩
  · dsimp only at h
    split at h
    · cases h
    · next hle =>
      cases h
      have hr : 11 + p.allocated.size ≠ ip :=
        Nat.ne_of_lt (Nat.lt_succ_of_le (Nat.le_of_not_lt hle))
      refine ⟨hr, rfl, fun y r' hr' => ?_⟩
      rw [Table.get?_set] at hr'
      split at hr'
      · exact Option.some.inj hr' ▸ hr
      · exact hp y r' hr'

theorem passes_allocate (x : String) : Passes f b (allocate x) (· ≠ ip) := by
  refine lays_silent fun k r k' hk hrun => ?_
  obtain ⟨pool, hpool, rfl⟩ := allocate_eq_ok hrun
  obtain ⟨hr, hturn, hregisters⟩ := allocate?_ne_ip (p := k.pool) hk.other.registers hpool
  exact ⟨⟨hturn ▸ hk.turning, hk.functions, ⟨hk.other.current, hregisters, hk.other.returned⟩⟩, hr,
    rfl, Nat.le_refl _⟩

theorem passes_registerOf {x : String} (hx : namesIp x = false) :
    Passes f b (registerOf? x) fun found => ∀ r, found = some r → r ≠ ip := by
  refine lays_bind lays_get fun k hk => ?_
  split
  · next r hr => exact lays_pure fun r' heq => Option.some.inj heq ▸ hk.other.registers x r hr
  · split
    · next digits hdigits =>
      split
      · next n hn =>
        refine lays_pure fun r heq => ?_
        cases heq
        rintro rfl
        simp [namesIp, hdigits, hn] at hx
      · exact lays_throw _
    · exact lays_pure fun r heq => by cases heq

theorem passes_current : Passes f b currentFunction (· = f) :=
  lays_bind lays_get fun _ hk => lays_pure hk.other.current

/-! Declarations. -/

theorem passes_localVar (d : VarDecl) : Passes f b (localVar d) fun _ => True := by
  refine lays_bind (passes_allocate d.name) fun r hr => ?_
  refine lays_then (passes_places fun _ => ⟨rfl, rfl, rfl, rfl, rfl, rfl⟩) ?_
  split
  · exact passes_initTo hr _
  · exact passes_write rfl hr

/-- The register of jumps cannot be asked for. -/
theorem passes_registerVar (d : VarDecl) (r : Fin 32) :
    Passes f b (registerVar d r) fun _ => True := by
  intro k a k' hk hrun
  obtain ⟨hle, k₁, hk₁, hinit⟩ := registerVar_eq_ok hrun
  have hr : r.val ≠ ip := Nat.ne_of_lt (Nat.lt_succ_of_le hle)
  have hready : k₁.Ready (Compiler.Inside f b) := by
    subst hk₁
    refine ⟨hk.turning, hk.functions, ⟨hk.other.current, fun x r' hr' => ?_, hk.other.returned⟩⟩
    have hget : (k.pool.allocated.set d.name r.val).get? x = some r' := hr'
    rw [Table.get?_set] at hget
    split at hget
    · exact Option.some.inj hget ▸ hr
    · exact hk.other.registers x r' hget
  have hsame : k₁.code = k.code ∧ k₁.labelCount = k.labelCount := by
    subst hk₁
    exact ⟨rfl, rfl⟩
  rcases hinit with ⟨e, -, hinit⟩ | ⟨-, rfl⟩
  · rw [← hsame.1, ← hsame.2]
    exact passes_initTo hr e k₁ a k' hready hinit
  · exact ⟨hready, trivial, [], by rw [hsame.1, List.append_nil], .nil (Nat.le_of_eq hsame.2.symm)⟩

theorem passes_varDecl (d : VarDecl) : Passes f b (varDecl d) fun _ => True := by
  unfold varDecl
  split
  · exact passes_registerVar d _
  · refine lays_bind passes_current fun current _ => lays_ite ?_ (passes_localVar d)
    refine lays_then (passes_places fun _ => ⟨rfl, rfl, rfl, rfl, rfl, rfl⟩) ?_
    refine lays_then (passes_places fun _ => ⟨rfl, rfl, rfl, rfl, rfl, rfl⟩) ?_
    refine lays_then (passes_places fun _ => ⟨rfl, rfl, rfl, rfl, rfl, rfl⟩)
      (passes_places fun _ => ?_)
    exact ⟨rfl, rfl, rfl, rfl, rfl, rfl⟩

theorem passes_localValues (l : Label) (es : List Expr) (i : Nat) :
    Passes f b (localValues l i es) fun _ => True := by
  induction es generalizing i with
  | nil => exact lays_return ()
  | cons e es ih =>
    rw [localValues]
    refine lays_then (passes_places fun _ => ⟨rfl, rfl, rfl, rfl, rfl, rfl⟩) ?_
    split
    · exact ih (i + 1)
    · refine lays_bind (e.lays_compile 0) fun v _ => lays_bind lays_temp fun a ha =>
        lays_then (lays_put rfl ha) ?_
      refine lays_bind lays_temp fun n hn =>
        lays_then (lays_put rfl hn) (lays_then (lays_put rfl ha) ?_)
      exact lays_then (lays_quiet rfl) (ih (i + 1))

theorem passes_dataLine (l : Line) : Passes f b (dataLine l) fun _ => True :=
  passes_places fun _ => ⟨rfl, rfl, rfl, rfl, rfl, rfl⟩

theorem passes_dataWords (es : List Expr) :
    Passes f b (es.forM fun e => dataLine (dataWord e)) fun _ => True := by
  induction es with
  | nil => exact lays_return ()
  | cons e es ih => exact lays_then (passes_dataLine _) ih

theorem passes_zeros (n : Nat) : Passes f b (zeros n) fun _ => True :=
  passes_places fun _ => ⟨rfl, rfl, rfl, rfl, rfl, rfl⟩

theorem passes_arrayDecl (d : ArrayDecl) : Passes f b (arrayDecl d) fun _ => True := by
  unfold arrayDecl
  split
  · refine lays_ite (lays_throw _) (lays_bind passes_current fun current _ => ?_)
    split
    · refine lays_then (passes_places fun _ => ⟨rfl, rfl, rfl, rfl, rfl, rfl⟩)
        (lays_then (passes_dataLine _) ?_)
      refine lays_then (passes_dataWords _) (lays_then (passes_zeros _) (passes_places fun _ => ?_))
      exact ⟨rfl, rfl, rfl, rfl, rfl, rfl⟩
    · refine lays_bind lays_labelNumber fun n _ =>
        lays_then (passes_dataLine _) (lays_then (passes_localValues _ _ _) ?_)
      exact lays_then (passes_zeros _) (passes_places fun _ => ⟨rfl, rfl, rfl, rfl, rfl, rfl⟩)
  · exact lays_throw _

theorem passes_pointerDecl (d : PointerDecl) : Passes f b (pointerDecl d) fun _ => True := by
  refine lays_bind (passes_allocate d.name) fun r hr => ?_
  split
  · exact passes_initTo hr _
  · exact passes_write rfl hr

theorem passes_decl (d : Decl) : Passes f b (decl d) fun _ => True := by
  cases d with
  | var d => exact passes_varDecl d
  | array d => exact passes_arrayDecl d
  | pointer d => exact passes_pointerDecl d

/-! Assignments. -/

theorem passes_assign {x : String} (hx : namesIp x = false) (e : Expr) :
    Passes f b (assign x e) fun _ => True := by
  refine lays_bind (e.lays_compile 0) fun v _ => lays_bind lays_get fun k hk => ?_
  split
  · exact lays_storeLabel _ v
  · refine lays_bind (passes_registerOf hx) fun found hfound => ?_
    split
    · exact passes_moveTo (hfound _ rfl) v
    · exact lays_bind (passes_allocate x) fun r hr => passes_moveTo hr v

theorem passes_bump {x : String} (hx : namesIp x = false) (op : AluOp) :
    Passes f b (bump op x) fun _ => True := by
  refine lays_bind (passes_registerOf hx) fun found hfound => ?_
  split
  · refine lays_bind lays_temp fun one hone => lays_then (lays_put rfl hone) ?_
    exact passes_write rfl (hfound _ rfl)
  · exact lays_throw _

end Compile

/-! ### Statements that write no jump -/

def ForInit.steady : ForInit → Bool
  | declare _ => true
  | assign x _ => !namesIp x

def ForStep.steady : ForStep → Bool
  | increment x _ | decrement x _ | assign x _ => !namesIp x

mutual

/-- No raw assembly, and no name is written that reads like the register of jumps. -/
def Stmt.steady : Stmt → Bool
  | assign x _ | increment x _ | decrement x _ => !namesIp x
  | ifThen _ s | whileLoop _ s | doWhile s _ => s.steady
  | ifElse _ s t => s.steady && t.steady
  | forLoop init _ step s => init.all ForInit.steady && step.all ForStep.steady && s.steady
  | block ss => Stmt.steadyAll ss
  | asm _ => false
  | decl _ | assignIndex _ _ _ | assignDeref _ _ | ret _ | call _ | breakLoop | continueLoop
  | hole => true

def Stmt.steadyAll : List Stmt → Bool
  | [] => true
  | s :: ss => s.steady && Stmt.steadyAll ss

end

theorem ForInit.steady_toStmt (i : ForInit) : i.toStmt.steady = i.steady := by
  cases i <;> simp [toStmt, Stmt.steady, steady]

theorem ForStep.steady_toStmt (st : ForStep) : st.toStmt.steady = st.steady := by
  cases st <;> simp [toStmt, Stmt.steady, steady]

theorem Stmt.passes_leaf {f : Option String} {b : Bool} {s : Stmt} (hleaf : s.isLeaf = true)
    (hreturn : s.isReturn = false) (hsteady : s.steady = true) :
    Passes f b s.compile fun _ => True := by
  have hnames {x : String} (hx : (!namesIp x) = true) : namesIp x = false :=
    (Bool.not_eq_true' _).mp hx
  cases s with
  | decl d =>
    rw [compile]
    exact passes_decl d
  | assign x e =>
    rw [steady] at hsteady
    rw [compile]
    exact passes_assign (hnames hsteady) e
  | assignIndex a i e =>
    rw [compile]
    exact lays_assignIndex a i e
  | assignDeref p e =>
    rw [compile]
    exact lays_assignDeref p e
  | call e =>
    rw [compile]
    exact lays_callStatement e
  | increment x before =>
    rw [steady] at hsteady
    rw [compile]
    exact passes_bump (hnames hsteady) .add
  | decrement x before =>
    rw [steady] at hsteady
    rw [compile]
    exact passes_bump (hnames hsteady) .sub
  | hole =>
    rw [compile]
    exact lays_bind lays_currentFunction fun _ _ => lays_throw _
  | asm text =>
    rw [steady] at hsteady
    cases hsteady
  | ret value => cases hreturn
  | _ => cases hleaf

end WordC
