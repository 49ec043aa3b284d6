import WordC.Proofs.ProgramReading

/-!
# What is read can be written

Whatever the reader accepts is a readable tree, so that writing it and reading again gives it back.
The proofs follow the readers, with a condition on the cursor in front and one on the value and the
cursor behind. Two of them need the cursor: a call statement is chosen by two tokens before its
expression is read, and a branch without an `else` ends where no `else` follows.
-/

namespace WordC.Parse

open Step

variable {α β : Type}

/-! ### Conditions in front and behind -/

/-- From a cursor with `pre`, a reader that gives a value leaves value and cursor with `post`. -/
def Ensures (p : Parse α) (pre : Cursor → Prop) (post : α → Cursor → Prop) : Prop :=
  ∀ c, pre c → ∀ a c', p c = (.ok a, c') → post a c'

/-- No condition on the cursor. -/
def unmarked (_ : Cursor) : Prop := True

/-- A reader whose values are all of a kind. -/
def Gives (p : Parse α) (Q : α → Prop) : Prop := p.Ensures unmarked fun a _ => Q a

variable {pre : Cursor → Prop} {post : β → Cursor → Prop} {P : α → Prop} {Q : β → Prop}

theorem Gives.ensures {p : Parse α} (h : p.Gives P) : p.Ensures pre fun a _ => P a :=
  fun c _ a c' hp => h c trivial a c' hp

theorem ensures_throw (e : ParseError) : (throw e : Parse β).Ensures pre post := by
  intro c _ a c' h
  cases congrArg Prod.fst h

theorem ensures_pure {b : β} (h : ∀ c, pre c → post b c) : (pure b : Parse β).Ensures pre post := by
  intro c hc a c' hp
  cases hp
  exact h c hc

variable {x : Parse α} {f : α → Parse β} {operand : Parse Expr}

theorem Ensures.bind {mid : α → Cursor → Prop} (hx : x.Ensures pre mid)
    (hf : ∀ a, (f a).Ensures (mid a) post) : (x >>= f).Ensures pre post := by
  intro c hc b c' h
  obtain ⟨a, c₁, hxa, hfb⟩ := bind_eq_ok h
  exact hf a c₁ (hx c hc a c₁ hxa) b c' hfb

/-- A step of which the rest relies on the value only. -/
theorem Ensures.bind_value (hx : x.Ensures pre fun a _ => P a)
    (hf : ∀ a, P a → (f a).Ensures unmarked post) : (x >>= f).Ensures pre post :=
  hx.bind fun a c ha b c' h => hf a ha c trivial b c' h

theorem Gives.bind (hx : x.Gives P) (hf : ∀ a, P a → (f a).Ensures unmarked post) :
    (x >>= f).Ensures pre post :=
  hx.ensures.bind_value hf

/-- A step that nothing depends on. -/
theorem ensures_step (x : Parse α) (hf : ∀ a, (f a).Ensures unmarked post) :
    (x >>= f).Ensures pre post :=
  Gives.bind (P := fun _ => True) (fun _ _ _ _ _ => trivial) fun a _ => hf a

theorem gives_throw (e : ParseError) : (throw e : Parse β).Gives Q := ensures_throw e

theorem gives_pure {b : β} (h : Q b) : (pure b : Parse β).Gives Q := ensures_pure fun _ _ => h

/-- Values that are passed on as parts of others. -/
theorem Gives.map (g : α → β) (hx : x.Gives P) (hg : ∀ a, P a → Q (g a)) : (g <$> x).Gives Q :=
  hx.bind fun a ha => gives_pure (hg a ha)

/-! ### Looking ahead -/

/-- The kind of the token that a cursor stands on. -/
def nextKind (c : Cursor) : Option Kind := c.ahead.head?.map Token.kind

theorem ensures_current?_bind {f : Option Token → Parse β}
    (hf : ∀ t, (f t).Ensures (fun c => pre c ∧ c.ahead.head? = t) post) :
    (current? >>= f).Ensures pre post := by
  intro c hc b c' h
  rw [bind_ok (current?_apply c)] at h
  exact hf _ c ⟨hc, rfl⟩ b c' h

theorem ensures_next?_bind {f : Option Token → Parse β}
    (hf : ∀ t, (f t).Ensures (fun c => pre c ∧ c.next? = t) post) :
    (next? >>= f).Ensures pre post := by
  intro c hc b c' h
  have hnext : next? c = (.ok c.next?, c) := rfl
  rw [bind_ok hnext] at h
  exact hf _ c ⟨hc, rfl⟩ b c' h

/-- A token that may stand there: either it is passed, or the cursor stays and stands on none of its
kind. -/
theorem ensures_accept_bind {k : Kind} {f : Bool → Parse β}
    (htrue :
      (f true).Ensures (fun c' => ∃ c, pre c ∧ ∃ t, c.ahead = t :: c'.ahead ∧ t.kind = k) post)
    (hfalse : (f false).Ensures (fun c => pre c ∧ nextKind c ≠ some k) post) :
    (accept k >>= f).Ensures pre post := by
  intro c hc b c' h
  obtain ⟨passed, ahead⟩ := c
  by_cases hk : nextKind ⟨passed, ahead⟩ = some k
  · obtain ⟨t, ht, hkind⟩ := Option.map_eq_some_iff.mp hk
    obtain ⟨ts, rfl⟩ : ∃ ts, ahead = t :: ts := List.head?_eq_some_iff.mp ht
    rw [bind_ok (accept_cons hkind passed ts)] at h
    exact htrue _ ⟨_, hc, t, rfl, hkind⟩ b c' h
  · have hne : ∀ t ∈ ahead.head?, t.kind ≠ k := by
      intro t ht hkind
      exact hk (by rw [nextKind, ht, Option.map_some, hkind])
    rw [bind_ok (accept_of_ne hne)] at h
    exact hfalse _ ⟨hc, hk⟩ b c' h

/-! ### Expressions -/

theorem gives_moreItems {item : Parse α} (hitem : item.Gives P) : ∀ (n : Nat) (done : List α),
    (∀ a ∈ done, P a) → (moreItems item n done).Gives fun as => ∀ a ∈ as, P a := by
  intro n
  induction n with
  | zero => exact fun _ _ => gives_throw _
  | succ n ih =>
    intro done hdone
    rw [moreItems]
    refine ensures_step _ fun more => ?_
    split
    · exact hitem.bind fun a ha => ih (a :: done) (List.forall_mem_cons.mpr ⟨ha, hdone⟩)
    · exact gives_pure fun a ha => hdone a (List.mem_reverse.mp ha)

theorem gives_itemsUntil {item : Parse α} (hitem : item.Gives P) (n : Nat) (s : Symbol) :
    (itemsUntil n item s).Gives fun as => ∀ a ∈ as, P a := by
  have hend {as : List α} (has : ∀ a ∈ as, P a) :
      (symbol s >>= fun _ => pure as : Parse (List α)).Gives fun as => ∀ a ∈ as, P a :=
    ensures_step _ fun _ => gives_pure has
  refine ensures_step _ fun k => ?_
  split
  · dsimp only
    split
    · exact hend (List.forall_mem_nil _)
    · refine hitem.bind fun a ha => ?_
      exact (gives_moreItems hitem n [a] (List.forall_mem_singleton.mpr ha)).bind
        fun as has => hend has
  · exact hend (List.forall_mem_nil _)

/-- Operators of one strength build on their left operand. -/
theorem gives_chain {level : List BinOp} {P R : Expr → Prop} (hoperand : operand.Gives R)
    (hstep : ∀ op ∈ level, ∀ l r, P l → R r → P (.binary op l r)) :
    ∀ (n : Nat) (left : Expr), P left → (chain level operand n left).Gives P := by
  intro n
  induction n with
  | zero => exact fun _ _ => gives_throw _
  | succ n ih =>
    intro left hleft
    rw [chain]
    refine ensures_step _ fun t => ?_
    split
    · rename_i op hop
      obtain ⟨u, -, hu⟩ := Option.bind_eq_some_iff.mp hop
      have hmem : op ∈ level := List.mem_of_find?_eq_some hu
      exact ensures_step _ fun _ => hoperand.bind fun r hr => ih _ (hstep op hmem left r hleft hr)
    · exact gives_pure hleft

theorem gives_binary (hoperand : operand.Gives Expr.Readable) (n : Nat)
    (levels : List (List BinOp)) : (binary n operand levels).Gives Expr.Readable := by
  induction levels with
  | nil => exact hoperand
  | cons level tighter ih =>
    refine ih.bind fun l hl => gives_chain ih ?_ n l hl
    intro op _ l r hl hr
    rw [Expr.Readable, Expr.Writable]
    exact ⟨hl, hr⟩

theorem readable_sign {k : Kind} {node : Expr → Expr} (h : signOf? k = some node) {e : Expr}
    (he : e.Readable) : (node e).Readable := by
  unfold signOf? at h
  split at h <;> cases h <;> rw [Expr.Readable, Expr.Writable]
  · exact he
  · exact he
  · exact ⟨by decide, he⟩
  · exact ⟨by decide, he⟩

theorem gives_signed (hoperand : operand.Gives Expr.Readable) :
    ∀ n : Nat, (signed operand n).Gives Expr.Readable := by
  intro n
  induction n with
  | zero => exact gives_throw _
  | succ n ih =>
    rw [signed]
    refine ensures_step _ fun k => ?_
    split
    · rename_i node hnode
      obtain ⟨j, -, hj⟩ := Option.bind_eq_some_iff.mp hnode
      exact ensures_step _ fun _ => ih.bind fun e he => gives_pure (readable_sign hj he)
    · exact hoperand

theorem gives_indexed {expr : Parse Expr} (hexpr : expr.Gives Expr.Readable) :
    ∀ (n : Nat) (base : Expr), base.Readable → (indexed expr n base).Gives Expr.Readable := by
  have hindex {x : String} {i : Expr} (hi : i.Readable) : (Expr.index x i).Readable := by
    rw [Expr.Readable, Expr.Writable]
    exact ⟨trivial, hi⟩
  intro n
  induction n with
  | zero => exact fun _ _ => gives_throw _
  | succ n ih =>
    intro base hbase
    rw [indexed]
    refine ensures_step _ fun more => ?_
    split
    · refine hexpr.bind fun i hi => ensures_step _ fun _ => ?_
      split
      · exact ih _ (hindex hi)
      · exact ih _ (hindex hi)
      · exact ensures_step _ fun _ => gives_throw _
    · exact gives_pure hbase

theorem gives_primary {expr : Parse Expr} (hexpr : expr.Gives Expr.Readable) (n : Nat) :
    (primary n expr).Gives Expr.Readable := by
  refine ensures_step _ fun t => ?_
  split
  · exact gives_throw _
  · split
    · refine ensures_step _ fun _ => ?_
      split
      · refine gives_pure ?_
        rw [Expr.Readable, Expr.Writable]
        trivial
      · exact gives_throw _
    · refine ensures_step _ fun _ => ensures_step _ fun call => ?_
      split
      · refine (gives_itemsUntil hexpr n .rightParen).bind fun args hargs => gives_pure ?_
        rw [Expr.Readable, Expr.Writable]
        exact ⟨trivial, Expr.allWritable_of_mem hargs⟩
      · refine gives_pure ?_
        rw [Expr.Readable, Expr.Writable]
        trivial
    · exact ensures_step _ fun _ => hexpr.bind fun e he => ensures_step _ fun _ => gives_pure he
    · exact gives_throw _

theorem gives_exprAt (n : Nat) : (exprAt n).Gives Expr.Readable := by
  induction n with
  | zero => exact gives_throw _
  | succ n ih =>
    refine gives_binary (gives_signed ?_ _) _ _
    exact (gives_primary ih (n + 1)).bind fun base hbase => gives_indexed ih (n + 1) base hbase

/-! ### Expressions that start with a call -/

/-- The cursor stands on a name with an opening parenthesis behind it. -/
def AtCall (c : Cursor) : Prop :=
  ∃ t u rest, c.ahead = t :: u :: rest ∧ t.kind = .identifier ∧ u.kind = .symbol .leftParen

/-- A call is not indexed. -/
theorem gives_indexed_call (expr : Parse Expr) (n : Nat) (g : String) (args : List Expr) :
    (indexed expr (n + 1) (.call g args)).Gives (· = .call g args) := by
  rw [indexed]
  refine ensures_step _ fun more => ?_
  split
  · exact ensures_step _ fun _ => ensures_step _ fun _ => ensures_step _ fun _ => gives_throw _
  · exact gives_pure rfl

theorem ensures_primary_call (expr : Parse Expr) (n : Nat) :
    (primary n expr).Ensures AtCall fun e _ => ∃ g args, e = .call g args := by
  rintro ⟨passed, ahead⟩ ⟨t, u, rest, rfl, ht, hu⟩ e c' h
  rw [primary, bind_ok (current?_apply _)] at h
  simp only [List.head?_cons, ht] at h
  unfold nameOrCall at h
  rw [bind_ok (advance_cons t passed _), bind_ok (accept_cons hu _ rest), if_pos rfl] at h
  obtain ⟨args, c₁, -, hpure⟩ := bind_eq_ok h
  cases hpure
  exact ⟨t.text, args, rfl⟩

theorem ensures_signed_call (f n : Nat) :
    (signed (postfixAt f) (n + 1)).Ensures AtCall fun e _ => ∃ g args, e = .call g args := by
  have hpostfix : (postfixAt f).Ensures AtCall fun e _ => ∃ g args, e = .call g args := by
    refine (ensures_primary_call _ _).bind fun base => ?_
    rintro c ⟨g, args, rfl⟩ e c' h
    exact ⟨g, args, gives_indexed_call _ f g args c trivial e c' h⟩
  rintro ⟨passed, ahead⟩ ⟨t, u, rest, rfl, ht, hu⟩ e c' h
  rw [signed_of_none (by rw [ht]; rfl)] at h
  exact hpostfix _ ⟨t, u, rest, rfl, ht, hu⟩ e c' h

/-- An expression that is read from a call on starts with this call, at every strength: `j` is how
far the strength is from that of signs. -/
theorem ensures_levelAt_call (f : Nat) : ∀ j k : Nat, k + j = 10 →
    (levelAt f k).Ensures AtCall fun e _ => e.startsCall = true ∧ k ≤ e.level := by
  intro j
  induction j with
  | zero =>
    rintro k rfl
    rw [levelAt_ten]
    intro c hc e c' h
    obtain ⟨g, args, rfl⟩ := ensures_signed_call f f c hc e c' h
    exact ⟨rfl, Nat.le_succ 10⟩
  | succ j ih =>
    intro k hk
    rw [levelAt_of_lt f (by omega)]
    refine (ih (k + 1) (by omega)).bind fun left => ?_
    -- The chain keeps that its left side starts with the call and needs no parentheses in front of
    -- an operator of strength `k`.
    have hchain (hleft : left.startsCall = true ∧ k ≤ left.level) :
        (chain (opsAt k) (levelAt f (k + 1)) (f + 1) left).Gives fun e =>
        e.startsCall = true ∧ k ≤ e.level := by
      refine gives_chain (R := fun _ => True) (fun _ _ _ _ _ => trivial) ?_ (f + 1) left hleft
      intro op hop l r hl _
      have hlevel : op.level = k := level_of_mem_opsAt hop
      refine ⟨?_, Nat.le_of_eq hlevel.symm⟩
      rw [Expr.startsCall, Bool.and_eq_true, decide_eq_true_eq, hlevel]
      exact ⟨hl.2, hl.1⟩
    intro c hleft
    exact hchain ⟨hleft.1, Nat.le_of_succ_le hleft.2⟩ c trivial

theorem ensures_exprAt_call (f : Nat) :
    (exprAt f).Ensures AtCall fun e _ => e.startsCall = true := by
  cases f with
  | zero => exact ensures_throw _
  | succ f => exact fun c hc e c' h => (ensures_levelAt_call f 10 0 rfl c hc e c' h).1

/-! ### Declarations -/

theorem forall_mem_some {a : α} (h : P a) : ∀ x ∈ some a, P x := by
  intro x hx
  rwa [← Option.some.inj hx]

theorem forall_mem_none : ∀ x ∈ (none : Option α), P x := by
  intro x hx
  cases hx

theorem gives_initial (f : Nat) : (initial f).Gives fun init => ∀ e ∈ init, e.Readable := by
  refine ensures_step _ fun given => ?_
  split
  · exact (gives_exprAt f).map some fun _ he => forall_mem_some he
  · exact gives_pure forall_mem_none

/-- The register of a name depends on the name only; the line is for errors. -/
theorem gives_registerOf (x : String) (line : Nat) :
    (registerOf x line).Gives fun r => ∀ line c, registerOf x line c = (.ok r, c) := by
  unfold registerOf
  split
  · rename_i d ds hx
    split
    · rename_i n hn
      split
      · rename_i hlt
        refine gives_pure fun line c => ?_
        simp only [hx, hn, dif_pos hlt, pure_apply]
      · exact gives_throw _
    · exact gives_throw _
  · exact gives_throw _

theorem gives_varDecl (f : Nat) (t : Token) (type : IntType) (register volatile : Bool) :
    (varDecl f t type register volatile).Gives fun d => (Decl.var d).Readable := by
  have hrest {number : Option (Fin 32)}
      (hnumber : ∀ r ∈ number, ∀ line c, registerOf t.text line c = (.ok r, c)) :
      (initial f >>= fun init => symbol .semicolon >>= fun _ =>
        pure { name := t.text, init, type, register := number, volatile } : Parse VarDecl).Gives
          fun d => (Decl.var d).Readable :=
    (gives_initial f).bind fun init hinit => ensures_step _ fun _ => gives_pure ⟨hinit, hnumber⟩
  unfold varDecl
  dsimp only
  split
  · exact ((gives_registerOf t.text t.line).map some fun _ hr => forall_mem_some hr).bind
      fun _ hnumber => hrest hnumber
  · exact hrest forall_mem_none

theorem gives_arrayDecl (f : Nat) (x : String) (register volatile : Bool) :
    (arrayDecl f x register volatile).Gives fun d => (Decl.array d).Readable := by
  refine (gives_exprAt f).bind fun size hsize => ensures_step _ fun _ =>
    ensures_step _ fun given => ?_
  have hend {init : Option (List Expr)} (hinit : ∀ es ∈ init, ∀ e ∈ es, e.Readable) :
      (symbol .semicolon >>= fun _ =>
      pure { name := x, size, init, register, volatile } : Parse ArrayDecl).Gives
        fun d => (Decl.array d).Readable :=
    ensures_step _ fun _ => gives_pure ⟨hsize, hinit⟩
  dsimp only
  split
  · refine ensures_step _ fun _ => ?_
    exact ((gives_itemsUntil (gives_exprAt f) f .rightBrace).map some fun _ hes =>
      forall_mem_some hes).bind fun _ hinit => hend hinit
  · exact hend forall_mem_none

theorem gives_pointerDecl (f : Nat) (x : String) (register volatile : Bool) :
    (pointerDecl f x register volatile).Gives fun d => (Decl.pointer d).Readable :=
  (gives_initial f).bind fun _ hinit => ensures_step _ fun _ => gives_pure hinit

theorem gives_declAt (f : Nat) : (declAt f).Gives Decl.Readable := by
  refine ensures_step _ fun words => ensures_step _ fun type => ensures_step _ fun pointer =>
      ensures_step _ fun name =>
    ensures_step _ fun bracket => ?_
  split
  · exact (gives_arrayDecl f _ _ _).map Decl.array fun _ hd => hd
  · split
    · exact (gives_pointerDecl f _ _ _).map Decl.pointer fun _ hd => hd
    · exact (gives_varDecl f _ _ _ _).map Decl.var fun _ hd => hd

/-! ### Simple statements -/

/-- A readable statement that ends in no open branch. -/
def Shut (s : Stmt) : Prop := s.Readable ∧ s.endsOpen = false

/-- What a statement leaves behind: it is readable, and if it ends in an open branch, no `else`
follows. -/
def Ended (s : Stmt) (c : Cursor) : Prop := s.Readable ∧ EndsStmt s (nextKind c)

theorem Shut.ended {s : Stmt} (h : Shut s) (c : Cursor) : Ended s c :=
  ⟨h.1, fun hopen => absurd (h.2.symm.trans hopen) Bool.false_ne_true⟩

theorem Gives.ended {p : Parse Stmt} (h : p.Gives Shut) : p.Ensures pre Ended :=
  fun c _ s c' hp => (h c trivial s c' hp).ended c'

theorem gives_assigned (f : Nat) : (assigned f).Gives Expr.Readable :=
  ensures_step _ fun _ => (gives_exprAt f).bind fun _ he => ensures_step _ fun _ => gives_pure he

theorem gives_assignmentAt (f : Nat) : (assignmentAt f).Gives Shut := by
  refine ensures_step _ fun t => ?_
  split
  · exact gives_throw _
  · split
    · refine ensures_step _ fun _ => (gives_exprAt f).bind fun p hp => ?_
      refine (gives_assigned f).map (Stmt.assignDeref p) fun e he => ⟨?_, rfl⟩
      rw [Stmt.Readable]
      exact ⟨hp, he⟩
    · refine ensures_step _ fun _ => ensures_step _ fun bracket => ?_
      split
      · refine (gives_exprAt f).bind fun i hi => ensures_step _ fun _ => ?_
        refine (gives_assigned f).map (Stmt.assignIndex _ i) fun e he => ⟨?_, rfl⟩
        rw [Stmt.Readable]
        exact ⟨hi, he⟩
      · refine (gives_assigned f).map (Stmt.assign _) fun e he => ⟨?_, rfl⟩
        rwa [Stmt.Readable]
    · exact gives_throw _

/-- The two tokens that choose a call statement are those that its expression starts with. -/
theorem ensures_namedStatement (f : Nat) {t : Token} (ht : t.kind = .identifier) :
    (namedStatement f t).Ensures (fun c => c.ahead.head? = some t) fun s _ => Shut s := by
  refine ensures_next?_bind fun u => ?_
  split
  · rename_i hu
    obtain ⟨u, rfl, hkind⟩ := Option.map_eq_some_iff.mp hu
    have hcall : (exprAt f).Ensures (fun c => c.ahead.head? = some t ∧ c.next? = some u)
        fun e _ => e.Readable ∧ e.startsCall = true := by
      rintro ⟨passed, ahead⟩ ⟨hhead, hnext⟩ e c' h
      obtain ⟨ts, rfl⟩ : ∃ ts, ahead = t :: ts := List.head?_eq_some_iff.mp hhead
      obtain ⟨rest, rfl⟩ : ∃ rest, ts = u :: rest :=
        List.head?_eq_some_iff.mp (by rw [List.head?_eq_getElem?]; exact hnext)
      exact ⟨gives_exprAt f _ trivial e c' h,
        ensures_exprAt_call f _ ⟨t, u, rest, rfl, ht, hkind⟩ e c' h⟩
    refine hcall.bind_value fun e he => ensures_step _ fun _ => gives_pure ⟨?_, rfl⟩
    rwa [Stmt.Readable]
  · exact (gives_assignmentAt f).ensures
  · exact (gives_assignmentAt f).ensures
  · refine ensures_step _ fun _ => ensures_step _ fun _ => ensures_step _ fun _ => ?_
    exact gives_pure (by simp [Shut, Stmt.Readable, Stmt.endsOpen])
  · refine ensures_step _ fun _ => ensures_step _ fun _ => ensures_step _ fun _ => ?_
    exact gives_pure (by simp [Shut, Stmt.Readable, Stmt.endsOpen])
  · exact ensures_throw _

theorem gives_returnStatement (f : Nat) : (returnStatement f).Gives Shut := by
  have hend {e : Option Expr} (he : ∀ v ∈ e, v.Readable) :
      (symbol .semicolon >>= fun _ => pure (Stmt.ret e)).Gives Shut := by
    refine ensures_step _ fun _ => gives_pure ⟨?_, rfl⟩
    rwa [Stmt.Readable]
  refine ensures_step _ fun _ => ensures_step _ fun k => ?_
  dsimp only
  split
  · split
    · exact hend forall_mem_none
    · exact ((gives_exprAt f).map some fun _ he => forall_mem_some he).bind fun _ hv => hend hv
  · exact hend forall_mem_none

theorem gives_asmStatement : asmStatement.Gives Shut := by
  refine ensures_step _ fun _ => ensures_step _ fun t => ensures_step _ fun _ => ?_
  exact gives_pure (by simp [Shut, Stmt.Readable, Stmt.endsOpen])

/-! ### Parts of a loop head -/

theorem gives_condition (f : Nat) : (condition f).Gives Expr.Readable :=
  ensures_step _ fun _ => (gives_exprAt f).bind fun _ he => ensures_step _ fun _ => gives_pure he

theorem gives_forVariable (f : Nat) (type : IntType) :
    (forVariable f type).Gives ForInit.Readable :=
  ensures_step _ fun _ => ensures_step _ fun _ => (gives_initial f).bind fun _ hinit =>
    gives_pure ⟨hinit, rfl, rfl⟩

theorem gives_forInit (f : Nat) : (forInit f).Gives fun init => ∀ i ∈ init, i.Readable := by
  refine ensures_step _ fun t => ?_
  split
  · exact gives_pure forall_mem_none
  · split
    · exact (gives_forVariable f _).map some fun _ hi => forall_mem_some hi
    · exact (gives_forVariable f _).map some fun _ hi => forall_mem_some hi
    · refine ensures_step _ fun u => ?_
      split
      · refine ensures_step _ fun _ => ensures_step _ fun _ => ?_
        exact (gives_exprAt f).bind fun e he => gives_pure (forall_mem_some he)
      · exact gives_pure forall_mem_none
    · exact gives_pure forall_mem_none

theorem gives_forCondition (f : Nat) : (forCondition f).Gives fun c => ∀ e ∈ c, e.Readable := by
  refine ensures_step _ fun k => ?_
  split
  · exact gives_pure forall_mem_none
  · split
    · exact gives_pure forall_mem_none
    · exact (gives_exprAt f).map some fun _ he => forall_mem_some he

theorem gives_forStep (f : Nat) : (forStep f).Gives fun step => ∀ s ∈ step, s.Readable := by
  refine ensures_step _ fun t => ?_
  split
  · exact gives_pure forall_mem_none
  · split
    · exact ensures_step _ fun _ => ensures_step _ fun _ => gives_pure (forall_mem_some trivial)
    · exact ensures_step _ fun _ => ensures_step _ fun _ => gives_pure (forall_mem_some trivial)
    · refine ensures_step _ fun _ => ensures_step _ fun plus => ?_
      split
      · exact gives_pure (forall_mem_some trivial)
      · refine ensures_step _ fun minus => ?_
        split
        · exact gives_pure (forall_mem_some trivial)
        · refine ensures_step _ fun assign => ?_
          split
          · exact (gives_exprAt f).bind fun e he => gives_pure (forall_mem_some he)
          · exact gives_pure forall_mem_none
    · exact gives_pure forall_mem_none

/-! ### Branches, loops and blocks -/

section Nested

variable {stmt : Parse Stmt} (hstmt : stmt.Ensures unmarked Ended) (f : Nat)

include hstmt

theorem ensures_ifStatement : (ifStatement f stmt).Ensures pre Ended := by
  refine ensures_step _ fun _ => (gives_condition f).bind fun c hc => hstmt.bind fun body =>
    ensures_accept_bind ?_ ?_
  · -- An `else` followed the body, so the body does not end in an open branch.
    rintro c₁ ⟨c₀, hbody, t, hahead, ht⟩
    have hshut : body.endsOpen = false := by
      rw [← Bool.not_eq_true]
      intro hopen
      refine hbody.2 hopen ?_
      rw [nextKind, hahead, List.head?_cons, Option.map_some, ht]
    refine hstmt.bind (fun other => ensures_pure ?_) c₁ trivial
    rintro c₂ hother
    refine ⟨?_, hother.2⟩
    rw [Stmt.Readable]
    exact ⟨hc, hbody.1, hshut, hother.1⟩
  · refine ensures_pure ?_
    rintro c₁ ⟨hbody, hne⟩
    refine ⟨?_, fun _ => hne⟩
    rw [Stmt.Readable]
    exact ⟨hc, hbody.1⟩

theorem ensures_whileStatement : (whileStatement f stmt).Ensures pre Ended := by
  refine ensures_step _ fun _ => (gives_condition f).bind fun c hc => hstmt.bind fun body =>
    ensures_pure fun c₁ hbody => ?_
  refine ⟨?_, hbody.2⟩
  rw [Stmt.Readable]
  exact ⟨hc, hbody.1⟩

theorem ensures_forStatement : (forStatement f stmt).Ensures pre Ended := by
  refine ensures_step _ fun _ => ensures_step _ fun _ => (gives_forInit f).bind fun init hinit =>
    ensures_step _ fun _ => ?_
  refine (gives_forCondition f).bind fun c hc => ensures_step _ fun _ =>
    (gives_forStep f).bind fun step hstep => ?_
  refine ensures_step _ fun _ => hstmt.bind fun body => ensures_pure fun c₁ hbody => ?_
  refine ⟨?_, hbody.2⟩
  rw [Stmt.Readable]
  exact ⟨hinit, hc, hstep, hbody.1⟩

theorem gives_stmt : stmt.Gives Stmt.Readable := fun c hc s c' h => (hstmt c hc s c' h).1

theorem gives_doStatement : (doStatement f stmt).Gives Shut := by
  refine ensures_step _ fun _ => (gives_stmt hstmt).bind fun body hbody =>
    ensures_step _ fun _ => ?_
  refine (gives_condition f).bind fun c hc => ensures_step _ fun _ => gives_pure ⟨?_, rfl⟩
  rw [Stmt.Readable]
  exact ⟨hbody, hc⟩

theorem gives_statements : ∀ (n : Nat) (done : List Stmt), (∀ s ∈ done, s.Readable) →
    (statements stmt n done).Gives fun ss => ∀ s ∈ ss, s.Readable := by
  intro n
  induction n with
  | zero => exact fun _ _ => gives_throw _
  | succ n ih =>
    intro done hdone
    have hread : ∀ s ∈ done.reverse, s.Readable := fun s hs => hdone s (List.mem_reverse.mp hs)
    rw [statements]
    refine ensures_step _ fun k => ?_
    split
    · exact gives_pure hread
    · split
      · exact gives_pure hread
      · exact (gives_stmt hstmt).bind fun s hs =>
          ih (s :: done) (List.forall_mem_cons.mpr ⟨hs, hdone⟩)

theorem gives_blockWith : (blockWith f stmt).Gives Stmt.AllReadable :=
  ensures_step _ fun _ => (gives_statements hstmt f [] (List.forall_mem_nil _)).bind fun _ hss =>
    ensures_step _ fun _ => gives_pure (Stmt.allReadable_of_mem hss)

end Nested

/-! ### Statements -/

theorem ensures_stmtWith {stmt : Parse Stmt} (hstmt : stmt.Ensures unmarked Ended) (f : Nat) :
    (stmtWith f stmt).Ensures unmarked Ended := by
  have hdecl : (Stmt.decl <$> declAt f).Gives Shut := by
    refine (gives_declAt f).map Stmt.decl fun d hd => ⟨?_, rfl⟩
    rwa [Stmt.Readable]
  have hblock : (Stmt.block <$> blockWith f stmt).Gives Shut := by
    refine (gives_blockWith hstmt f).map Stmt.block fun ss hss => ⟨?_, rfl⟩
    rwa [Stmt.Readable]
  refine ensures_current?_bind fun t => ?_
  split
  · exact ensures_throw _
  · -- One case for each kind of first token, in the order of the reader.
    split
    · exact hdecl.ended
    · exact hdecl.ended
    · exact hdecl.ended
    · exact hdecl.ended
    · refine Gives.ended
        (ensures_step _ fun _ => ensures_step _ fun x => ensures_step _ fun _ => ?_)
      exact gives_pure (by simp [Shut, Stmt.Readable, Stmt.endsOpen])
    · refine Gives.ended
        (ensures_step _ fun _ => ensures_step _ fun x => ensures_step _ fun _ => ?_)
      exact gives_pure (by simp [Shut, Stmt.Readable, Stmt.endsOpen])
    · exact (gives_returnStatement f).ended
    · exact ensures_ifStatement hstmt f
    · exact (gives_doStatement hstmt f).ended
    · exact ensures_whileStatement hstmt f
    · exact ensures_forStatement hstmt f
    · refine Gives.ended (ensures_step _ fun _ => ensures_step _ fun _ => ?_)
      exact gives_pure (by simp [Shut, Stmt.Readable, Stmt.endsOpen])
    · refine Gives.ended (ensures_step _ fun _ => ensures_step _ fun _ => ?_)
      exact gives_pure (by simp [Shut, Stmt.Readable, Stmt.endsOpen])
    · exact gives_asmStatement.ended
    · exact hblock.ended
    · rename_i hkind
      exact fun c hc s c' h => (ensures_namedStatement f hkind c hc.2 s c' h).ended c'
    · refine Gives.ended (ensures_step _ fun u => ?_)
      split
      · exact gives_assignmentAt f
      · exact gives_throw _
    · exact ensures_throw _

theorem ensures_stmtAt (f : Nat) : (stmtAt f).Ensures unmarked Ended := by
  induction f with
  | zero => exact ensures_throw _
  | succ f ih => exact ensures_stmtWith ih (f + 1)

/-! ### Functions and programs -/

theorem gives_functionAt (f : Nat) : (functionAt f).Gives Func.Readable := by
  refine ensures_step _ fun interrupt => ensures_step _ fun _ => ensures_step _ fun name =>
    ensures_step _ fun _ => ?_
  refine ensures_step _ fun params => ensures_step _ fun _ => ?_
  dsimp only
  split
  · exact (gives_throw (Q := fun _ => False) _).bind fun _ h => h.elim
  · rename_i hhandler
    refine (gives_blockWith (ensures_stmtAt f) f).bind fun body hbody =>
      gives_pure ⟨hbody, fun hi => ?_⟩
    exact Decidable.not_not.mp fun hparams => hhandler ⟨hi, hparams⟩

/-- A readable part of a program. -/
def Item.Readable : Item → Prop
  | .function g => g.Readable
  | .global d => d.Readable

theorem gives_itemAt (f : Nat) (t : Token) : (itemAt f t).Gives Item.Readable := by
  have hfunction : (Item.function <$> functionAt f).Gives Item.Readable :=
    (gives_functionAt f).map Item.function fun _ hg => hg
  have hglobal : (Item.global <$> declAt f).Gives Item.Readable :=
    (gives_declAt f).map Item.global fun _ hd => hd
  unfold itemAt
  split
  · exact hfunction
  · refine ensures_step _ fun u => ?_
    split
    · exact hfunction
    · exact gives_throw _
  · exact hglobal
  · exact hglobal
  · exact hglobal
  · exact hglobal
  · exact gives_throw _

theorem gives_items (inner : Nat) :
    ∀ (n : Nat) (fs : List Func) (gs : List Decl), (∀ g ∈ fs, g.Readable) → (∀ d ∈ gs, d.Readable) →
      (items inner n fs gs).Gives fun p =>
      (∀ d ∈ p.globals, d.Readable) ∧ ∀ g ∈ p.functions, g.Readable := by
  intro n
  induction n with
  | zero => exact fun _ _ _ _ => gives_throw _
  | succ n ih =>
    intro fs gs hfs hgs
    have hdone : (∀ d ∈ gs.reverse, d.Readable) ∧ ∀ g ∈ fs.reverse, g.Readable :=
      ⟨fun d hd => hgs d (List.mem_reverse.mp hd), fun g hg => hfs g (List.mem_reverse.mp hg)⟩
    rw [items]
    refine ensures_step _ fun t => ?_
    split
    · exact gives_pure hdone
    · split
      · exact gives_pure hdone
      · refine (gives_itemAt inner _).bind fun i hi => ?_
        cases i with
        | function g => exact ih (g :: fs) gs (List.forall_mem_cons.mpr ⟨hi, hfs⟩) hgs
        | global d => exact ih fs (d :: gs) hfs (List.forall_mem_cons.mpr ⟨hi, hgs⟩)

theorem gives_programAt (f : Nat) : (programAt f).Gives Program.Readable := by
  refine (gives_items f f [] [] (List.forall_mem_nil _) (List.forall_mem_nil _)).bind fun p hp => ?_
  split
  · rename_i hmain
    exact gives_pure ⟨hp.1, hp.2, hmain⟩
  · exact gives_throw _

end WordC.Parse

namespace WordC

open Parse

theorem Program.readable_of_ofTokens {ts : List Token} {p : Program}
    (h : Program.ofTokens ts = .ok p) : p.Readable := by
  have hread : Parse.program.Gives Program.Readable := ensures_step _ fun n => gives_programAt n
  exact hread ⟨[], ts⟩ trivial p (Parse.program.runOn ts).2 (Prod.ext h rfl)

/-- A program that is read from any tokens is read again, the same in every part, from tokens of its
lexemes and the one that ends the input. -/
theorem program_read_back {ts : List Token} {p : Program} (h : Program.ofTokens ts = .ok p)
    {us : List Token} (hus : us.map Token.lexeme = p.lexemes) (q : Position) :
    Program.ofTokens (us ++ [Token.endOfInput q]) = .ok p :=
  ofTokens_lexemes (Program.readable_of_ofTokens h) hus q

/-- A token of a lexeme, at the first place of a text. -/
def Lexeme.token (l : Lexeme) : Token := ⟨l.kind, l.text, {}⟩

theorem Lexeme.map_token (ls : List Lexeme) : (ls.map token).map Token.lexeme = ls := by
  rw [List.map_map]
  exact List.map_id ls

/-- `function main() { if (a) if ((b)) x = 10; else f(1) + 2; for (;; i) *p + 1 = 2; } register
uint32 r3 = 1;` -/
def nestedBranches : List Lexeme :=
  [.keyword .function, .name "main", .symbol .leftParen, .symbol .rightParen, .symbol .leftBrace,
   .keyword .ifKw, .symbol .leftParen, .name "a", .symbol .rightParen,
   .keyword .ifKw, .symbol .leftParen, .symbol .leftParen, .name "b", .symbol .rightParen,
   .symbol .rightParen, .name "x", .symbol .assign, .number "10", .symbol .semicolon,
   .keyword .elseKw, .name "f", .symbol .leftParen, .number "1", .symbol .rightParen, .symbol .plus,
   .number "2", .symbol .semicolon, .keyword .forKw, .symbol .leftParen, .symbol .semicolon,
   .symbol .semicolon, .name "i", .symbol .rightParen, .symbol .star, .name "p", .symbol .plus,
   .number "1", .symbol .assign, .number "2", .symbol .semicolon, .symbol .rightBrace,
   .keyword .register, .keyword .uint32, .name "r3", .symbol .assign, .number "1",
   .symbol .semicolon]

def nestedProgram : Program where
  functions := [{
    name := "main"
    params := []
    body := [
      .ifThen (.name "a") (.ifElse (.name "b") (.assign "x" (.literal 10))
        (.call (.binary .add (.call "f" [.literal 1]) (.literal 2)))),
      .forLoop none none none (.assignDeref (.binary .add (.name "p") (.literal 1)) (.literal 2))]
        }]
  globals := [.var { name := "r3", init := some (.literal 1), register := some 3 }]

/-- The `else` goes with the inner branch both times, though the second text has other parentheses,
other numerals and the global in front. -/
theorem nestedProgram_read_back :
    Program.ofTokens (nestedBranches.map Lexeme.token) = .ok nestedProgram ∧
      Program.ofTokens (nestedProgram.lexemes.map Lexeme.token ++ [Token.endOfInput {}]) =
      .ok nestedProgram := by
  have h : Program.ofTokens (nestedBranches.map Lexeme.token) = .ok nestedProgram := by
    set_option maxRecDepth 4000 in rfl
  exact ⟨h, program_read_back h (Lexeme.map_token _) {}⟩

end WordC
