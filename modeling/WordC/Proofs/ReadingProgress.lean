import WordC.Proofs.Reading
import WordC.Stmt.Parse

/-!
# Reading moves on

Every reader carries a bound on its depth. The bound plays no role: from a number of tokens on that
is larger than what is ahead, a reader does the same with every bound, and it never reaches it. With
this goes whether a value has cost a token, which is what the proof relies on: behind a token fewer
tokens are ahead, and there the same reader is already known to settle. What a reader passes is
never the end of the input and never a token that stands for an error.
-/

namespace WordC

/-- The kinds of token that a reader passes. -/
def Kind.Passable (k : Kind) : Prop := k ≠ .error ∧ k ≠ .endOfInput

namespace Parse

open Step

variable {α β : Type} {k : Nat} {ts : List Token} {costs : Bool}

theorem passable_symbol (s : Symbol) : (Kind.symbol s).Passable := ⟨by simp, by simp⟩

theorem passable_keyword (w : Keyword) : (Kind.keyword w).Passable := ⟨by simp, by simp⟩

theorem passable_identifier : Kind.identifier.Passable := ⟨by simp, by simp⟩

/-! ### Readers with a bound -/

/-- How reading from `c` ends: not for want of depth, and behind some of the tokens ahead, all of
which may be passed. If it `costs` something, then a value is only found behind one token at least.
-/
structure MovesOn (c : Cursor) (costs : Bool) (r : Except ParseError α × Cursor) : Prop where
  notDeep : r.1 ≠ .error .tooDeep
  behind : ∃ us, c.ahead = us ++ r.2.ahead ∧ r.2.passed = us.reverse ++ c.passed ∧
    (∀ t ∈ us, t.kind.Passable) ∧ ∀ a, r.1 = .ok a → costs = true → 0 < us.length

/-- With the tokens `ts` ahead, if they are fewer than `k`, a reader does the same with every bound
from `k` on, and it moves on. -/
def Settles (k : Nat) (ts : List Token) (costs : Bool) (p : Nat → Parse α) : Prop :=
  ts.length < k → ∀ n, k ≤ n → ∀ passed,
    p n ⟨passed, ts⟩ = p k ⟨passed, ts⟩ ∧ MovesOn ⟨passed, ts⟩ costs (p k ⟨passed, ts⟩)

namespace Settles

variable {p q : Nat → Parse α} {x : Nat → Parse α} {f : Nat → α → Parse β}

theorem of_lt (h : ts.length < k → Settles k ts costs p) : Settles k ts costs p := fun hk => h hk hk

theorem weaken (h : Settles k ts true p) : Settles k ts costs p := by
  intro hk n hn passed
  obtain ⟨heq, hdeep, us, hahead, hpassed, hkinds, hcost⟩ := h hk n hn passed
  exact ⟨heq, hdeep, us, hahead, hpassed, hkinds, fun a ha _ => hcost a ha rfl⟩

theorem congr (h : Settles k ts costs p) (hq : ∀ n, k ≤ n → q n = p n) : Settles k ts costs q := by
  intro hk n hn
  rw [hq n hn, hq k (Nat.le_refl k)]
  exact h hk n hn

/-- Two steps one after the other, the second with what the first one has left ahead. -/
theorem bind_left {first second : Bool} (hx : Settles k ts first x)
    (hf : ∀ a us, us.length ≤ ts.length → (first = true → us.length < ts.length) →
      Settles k us second fun n => f n a) (hcosts : costs = true → first = true ∨ second = true) :
    Settles k ts costs fun n => x n >>= f n := by
  intro hk n hn passed
  obtain ⟨heq, hdeep, us, hahead, hpassed, hkinds, hcost⟩ := hx hk n hn passed
  dsimp only
  rcases hr : x k ⟨passed, ts⟩ with ⟨e | a, c⟩
  · rw [hr] at heq hdeep hahead hpassed
    rw [bind_error hr, bind_error heq]
    refine ⟨rfl, by simpa using hdeep, us, hahead, hpassed, hkinds, ?_⟩
    intro b hb
    cases hb
  · rw [hr] at heq hahead hpassed hcost
    rw [bind_ok hr, bind_ok heq]
    have hlength : ts.length = us.length + c.ahead.length := by
      rw [← List.length_append]
      exact congrArg List.length hahead
    have hshorter : first = true → c.ahead.length < ts.length := by
      intro hfirst
      have hpos := hcost a rfl hfirst
      omega
    obtain ⟨heq', hdeep', vs, hahead', hpassed', hkinds', hcost'⟩ :=
      hf a c.ahead (by omega) hshorter (by omega) n hn c.passed
    refine ⟨heq', hdeep', us ++ vs, ?_, ?_, ?_, ?_⟩
    · rw [List.append_assoc, ← hahead']
      exact hahead
    · rw [hpassed', List.reverse_append, List.append_assoc]
      exact congrArg (vs.reverse ++ ·) hpassed
    · intro t ht
      rcases List.mem_append.mp ht with ht | ht
      · exact hkinds t ht
      · exact hkinds' t ht
    · intro b hb hc
      rw [List.length_append]
      rcases hcosts hc with hfirst | hsecond
      · exact Nat.add_pos_left (hcost a rfl hfirst) _
      · exact Nat.add_pos_right _ (hcost' b hb hsecond)

/-- Behind a step whose value costs something fewer tokens are ahead, and it pays for both. -/
theorem andThen (hx : Settles k ts true x)
    (hf : ∀ a us, us.length < ts.length → Settles k us false fun n => f n a) :
    Settles k ts costs fun n => x n >>= f n :=
  hx.bind_left (fun a us _ hus => hf a us (hus rfl)) fun _ => Or.inl rfl

/-- A step whose value may cost nothing leaves the cost to the next one. -/
theorem bind (hx : Settles k ts false x)
    (hf : ∀ a us, us.length ≤ ts.length → Settles k us costs fun n => f n a) :
    Settles k ts costs fun n => x n >>= f n :=
  hx.bind_left (fun a us hus _ => hf a us hus) fun h => Or.inr h

end Settles

theorem settles_pure (a : α) : Settles k ts false fun _ => pure a := by
  intro _ n _ passed
  refine ⟨rfl, by simp [pure_apply], [], rfl, rfl, ?_, ?_⟩
  · simp
  · simp

theorem settles_throw {e : ParseError} (he : e ≠ .tooDeep) :
    Settles k ts costs fun _ => (throw e : Parse α) := by
  intro _ n _ passed
  have happly : (throw e : Parse α) ⟨passed, ts⟩ = (.error e, ⟨passed, ts⟩) := rfl
  dsimp only
  rw [happly]
  refine ⟨rfl, by simpa using he, [], rfl, rfl, ?_, ?_⟩
  · simp
  · simp

theorem Settles.map {x : Nat → Parse α} (g : α → β) (hx : Settles k ts costs x) :
    Settles k ts costs fun n => g <$> x n :=
  hx.bind_left (fun a _ _ _ => settles_pure (g a)) fun h => Or.inl h

/-! ### Loops and nested readers -/

/-- A loop that is as long as the bound. A turn may rely on the turns behind it, where fewer tokens
are ahead. -/
theorem settles_loop {σ : Type} {p : Nat → Nat → σ → Parse α}
    (hturn : ∀ (fuel : Nat → Nat) s us, us.length ≤ ts.length →
      (∀ s' vs, vs.length < us.length → Settles k vs costs fun n => p n (fuel n) s') →
      Settles k us costs fun n => p n (fuel n + 1) s)
    (s : σ) : Settles k ts costs fun n => p n n s := by
  have hall (us : List Token) : ∀ (fuel : Nat → Nat) (s : σ), us.length ≤ ts.length →
      (∀ n, k ≤ n → us.length < fuel n) →
      Settles k us costs fun n => p n (fuel n) s := by
    induction hlength : us.length using Nat.strongRecOn generalizing us with
    | ind j ih =>
      subst hlength
      intro fuel s hus hfuel
      have hfuel' (n : Nat) (hn : k ≤ n) : fuel n - 1 + 1 = fuel n := by
        have := hfuel n hn
        omega
      refine (hturn (fun n => fuel n - 1) s us hus fun s' vs hvs => ?_).congr fun n hn => by
        rw [hfuel' n hn]
      refine ih vs.length hvs vs rfl _ s' (by omega) fun n hn => ?_
      have := hfuel n hn
      omega
  exact .of_lt fun hk => hall ts (fun n => n) s (Nat.le_refl _) fun n hn => Nat.lt_of_lt_of_le hk hn

/-- A reader that is nested in itself, each time with one less to its bound. The induction is on the
number of tokens. -/
theorem settles_nest {body : Nat → Parse α → Parse α} {readAt : Nat → Parse α}
    (hreadAt : ∀ n, readAt (n + 1) = body (n + 1) (readAt n))
    (hbody : ∀ k inner ts, (∀ us, us.length < k → Settles (k + 1) us true inner) →
      Settles (k + 1) ts true fun n => body n (inner n)) : Settles k ts true readAt := by
  induction k generalizing ts with
  | zero =>
    intro hk
    omega
  | succ k ih =>
    refine (hbody k (fun n => readAt (n - 1)) ts fun us hus _ n hn => ?_).congr fun n hn => ?_
    · exact ih hus (n - 1) (by omega)
    · obtain ⟨m, rfl⟩ := Nat.exists_eq_add_of_lt hn
      exact hreadAt _

/-! ### Steps that look ahead -/

/-- A step that leaves the cursor where it is. -/
theorem settles_look {x : Parse α} {a : α} {f : Nat → α → Parse β}
    (hx : ∀ passed, x ⟨passed, ts⟩ = (.ok a, ⟨passed, ts⟩))
    (h : Settles k ts costs fun n => f n a) : Settles k ts costs fun n => x >>= f n := by
  intro hk n hn passed
  dsimp only
  rw [bind_ok (hx passed), bind_ok (hx passed)]
  exact h hk n hn passed

theorem settles_current?_bind {f : Nat → Option Token → Parse β}
    (h : Settles k ts costs fun n => f n ts.head?) : Settles k ts costs fun n => current? >>= f n :=
  settles_look (fun _ => rfl) h

theorem settles_kind?_bind {f : Nat → Option Kind → Parse β}
    (h : Settles k ts costs fun n => f n (ts.head?.map Token.kind)) :
    Settles k ts costs fun n => kind? >>= f n := settles_look (fun _ => kind?_apply _) h

theorem settles_next?_bind {f : Nat → Option Token → Parse β}
    (h : Settles k ts costs fun n => f n ts[1]?) : Settles k ts costs fun n => next? >>= f n :=
  settles_look (fun _ => rfl) h

/-! ### Steps that pass one token -/

theorem settles_advance {t : Token} (ht : t.kind.Passable) :
    Settles k (t :: ts) true fun _ => advance := by
  intro _ n _ passed
  dsimp only
  rw [advance_cons]
  refine ⟨rfl, by simp, [t], rfl, rfl, ?_, ?_⟩
  · simpa using ht
  · simp

/-- The token that is passed is known, and so is what is ahead of it. -/
theorem settles_advance_bind {t : Token} {f : Nat → Token → Parse β} (ht : t.kind.Passable)
    (h : Settles k ts false fun n => f n t) :
    Settles k (t :: ts) costs fun n => advance >>= f n := by
  intro hk n hn passed
  dsimp only
  rw [bind_ok (advance_cons t passed ts), bind_ok (advance_cons t passed ts)]
  obtain ⟨heq, hdeep, us, hahead, hpassed, hkinds, -⟩ := h (Nat.lt_of_succ_lt hk) n hn (t :: passed)
  refine ⟨heq, hdeep, t :: us, ?_, ?_, ?_, ?_⟩
  · exact congrArg (t :: ·) hahead
  · rw [hpassed, List.reverse_cons, List.append_assoc, List.singleton_append]
  · intro u hu
    rcases List.mem_cons.mp hu with rfl | hu
    · exact ht
    · exact hkinds u hu
  · simp

theorem settles_expect {kind : Kind} (hkind : kind.Passable) (label : Option String) :
    Settles k ts true fun _ => expect kind label := by
  refine settles_current?_bind ?_
  cases ts with
  | nil => exact settles_throw (by simp)
  | cons t ts =>
    dsimp only [List.head?_cons]
    split
    · next heq => exact settles_advance (heq ▸ hkind)
    · exact settles_throw (by simp)

theorem settles_symbol (s : Symbol) : Settles k ts true fun _ => symbol s :=
  (settles_expect (passable_symbol s) none).map fun _ => ()

theorem settles_keyword (w : Keyword) : Settles k ts true fun _ => keyword w :=
  (settles_expect (passable_keyword w) none).map fun _ => ()

theorem settles_identifier (label : String) : Settles k ts true fun _ => identifier label :=
  (settles_expect passable_identifier (some label)).map Token.text

/-- A token that may stand there. If it does, fewer tokens are ahead. -/
theorem settles_accept_bind {kind : Kind} {f : Nat → Bool → Parse β} (hkind : kind.Passable)
    (htrue : ∀ us, us.length < ts.length → Settles k us false fun n => f n true)
    (hfalse : Settles k ts costs fun n => f n false) :
    Settles k ts costs fun n => accept kind >>= f n := by
  unfold accept
  simp only [bind_assoc]
  refine settles_kind?_bind ?_
  split
  · next heq =>
    obtain ⟨t, ht, hk⟩ := Option.map_eq_some_iff.mp heq
    obtain ⟨us, rfl⟩ : ∃ us, ts = t :: us := List.head?_eq_some_iff.mp ht
    simp only [bind_assoc, pure_bind]
    exact settles_advance_bind (hk ▸ hkind) (htrue us (by simp))
  · simp only [pure_bind]
    exact hfalse

theorem settles_accept {kind : Kind} (hkind : kind.Passable) :
    Settles k ts false fun _ => accept kind := by
  rw [← bind_pure (accept kind)]
  exact settles_accept_bind hkind (fun _ _ => settles_pure true) (settles_pure false)

/-! ### Items between commas -/

section Items

variable {item : Nat → Parse α}

theorem settles_moreItems (hitem : ∀ us, us.length < ts.length → Settles k us true item)
    (done : List α) : Settles k ts false fun n => moreItems (item n) n done := by
  refine settles_loop (p := fun n fuel done => moreItems (item n) fuel done)
    (fun fuel done us hus hrest => ?_) done
  refine settles_accept_bind (passable_symbol _) (fun vs hvs => ?_) (settles_pure _)
  exact (hitem vs (by omega)).andThen fun a ws hws => hrest _ ws (by omega)

theorem settles_itemsUntil (hitem : ∀ us, us.length ≤ ts.length → Settles k us true item)
    (closing : Symbol) : Settles k ts true fun n => itemsUntil n (item n) closing := by
  have hclose (us : List Token) (as : List α) :
      Settles k us true fun _ => symbol closing >>= fun _ => pure as :=
    (settles_symbol closing).andThen fun _ _ _ => settles_pure as
  refine settles_kind?_bind ?_
  split
  · split
    · exact hclose ts []
    · refine (hitem ts (Nat.le_refl _)).andThen fun a us hus => ?_
      exact (settles_moreItems (fun vs hvs => hitem vs (by omega)) [a]).bind fun as vs _ =>
        (hclose vs as).weaken
  · exact hclose ts []

end Items

/-! ### Expressions -/

section Expressions

variable {expr operand : Nat → Parse Expr}

theorem levelOp?_passable {level : List BinOp} {t : Token} {op : BinOp}
    (h : levelOp? level t = some op) : t.kind.Passable := by
  have hkind : t.kind = .symbol op.symbol := by simpa using List.find?_some h
  rw [hkind]
  exact passable_symbol _

theorem signOf?_passable {kind : Kind} {node : Expr → Expr} (h : signOf? kind = some node) :
    kind.Passable := by
  unfold signOf? at h
  split at h
  case h_5 => cases h
  all_goals exact passable_symbol _

theorem settles_chain (level : List BinOp) (hoperand : ∀ us, Settles k us true operand)
    (left : Expr) : Settles k ts false fun n => chain level (operand n) n left := by
  refine settles_loop (p := fun n fuel left => chain level (operand n) fuel left)
    (fun fuel left us _ hrest => settles_current?_bind ?_) left
  split
  · next op heq =>
    obtain ⟨t, ht, hop⟩ := Option.bind_eq_some_iff.mp heq
    obtain ⟨vs, rfl⟩ : ∃ vs, us = t :: vs := List.head?_eq_some_iff.mp ht
    refine settles_advance_bind (levelOp?_passable hop) ?_
    exact (hoperand vs).andThen fun right ws hws => hrest _ ws (Nat.lt_succ_of_lt hws)
  · exact settles_pure left

theorem settles_binary (hoperand : ∀ us, Settles k us true operand) (levels : List (List BinOp)) :
    Settles k ts true fun n => binary n (operand n) levels := by
  induction levels generalizing ts with
  | nil => exact hoperand ts
  | cons level tighter ih =>
    exact ih.andThen fun left us _ => settles_chain level (fun _ => ih) left

theorem settles_signed (hoperand : ∀ us, Settles k us true operand) :
    Settles k ts true fun n => signed (operand n) n := by
  refine settles_loop (p := fun n fuel _ => signed (operand n) fuel)
    (fun fuel _ us _ hrest => settles_kind?_bind ?_) ()
  split
  · next node heq =>
    obtain ⟨kind, hkind, hsign⟩ := Option.bind_eq_some_iff.mp heq
    obtain ⟨t, ht, rfl⟩ := Option.map_eq_some_iff.mp hkind
    obtain ⟨vs, rfl⟩ : ∃ vs, us = t :: vs := List.head?_eq_some_iff.mp ht
    refine settles_advance_bind (signOf?_passable hsign) ?_
    exact ((hrest () vs (by simp)).map node).weaken
  · exact hoperand us

theorem settles_indexed (hexpr : ∀ us, us.length < ts.length → Settles k us true expr)
    (base : Expr) : Settles k ts false fun n => indexed (expr n) n base := by
  refine settles_loop (p := fun n fuel base => indexed (expr n) fuel base)
    (fun fuel base us hus hrest => ?_) base
  refine settles_accept_bind (passable_symbol _) (fun vs hvs => ?_) (settles_pure base)
  refine (hexpr vs (by omega)).andThen fun position ws hws =>
    (settles_symbol _).andThen fun _ xs hxs => ?_
  split
  · exact hrest _ xs (by omega)
  · exact hrest _ xs (by omega)
  · exact settles_current?_bind (settles_throw (by simp))

theorem settles_literal {t : Token} (ht : t.kind = .literal) :
    Settles k (t :: ts) true fun _ => literal t := by
  refine settles_advance_bind (by simp [ht, Kind.Passable]) ?_
  split
  · exact settles_pure _
  · exact settles_throw (by simp)

theorem settles_nameOrCall (hexpr : ∀ us, us.length ≤ ts.length → Settles k us true expr)
    {t : Token} (ht : t.kind = .identifier) (x : String) :
    Settles k (t :: ts) true fun n => nameOrCall n (expr n) x := by
  refine settles_advance_bind (by simp [ht, Kind.Passable]) ?_
  refine settles_accept_bind (passable_symbol _) (fun us hus => ?_) (settles_pure _)
  exact ((settles_itemsUntil (fun vs hvs => hexpr vs (by omega)) _).map (Expr.call x)).weaken

theorem settles_primary (hexpr : ∀ us, us.length < ts.length → Settles k us true expr) :
    Settles k ts true fun n => primary n (expr n) := by
  refine settles_current?_bind ?_
  cases ts with
  | nil => exact settles_throw (by simp)
  | cons t ts =>
    have hinner (us : List Token) (hus : us.length ≤ ts.length) : Settles k us true expr :=
      hexpr us (Nat.lt_succ_of_le hus)
    dsimp only [List.head?_cons]
    split
    · next hkind => exact settles_literal hkind
    · next hkind => exact settles_nameOrCall hinner hkind _
    · next hkind =>
      refine settles_advance_bind (hkind ▸ passable_symbol _) ?_
      refine (hinner ts (Nat.le_refl _)).andThen fun e us _ => ?_
      exact (settles_symbol _).andThen fun _ _ _ => settles_pure e
    · exact settles_throw (by simp)

theorem settles_exprWith (hexpr : ∀ us, us.length < k → Settles (k + 1) us true expr) :
    Settles (k + 1) ts true fun n => exprWith n (expr n) := by
  refine settles_binary (fun us => settles_signed fun vs => .of_lt fun hvs => ?_) _
  refine (settles_primary fun ws hws => hexpr ws (by omega)).andThen fun base ws hws => ?_
  exact settles_indexed (fun xs hxs => hexpr xs (by omega)) base

theorem settles_exprAt : Settles k ts costs exprAt :=
  (settles_nest (fun _ => rfl) fun _ _ _ hinner => settles_exprWith hinner).weaken

end Expressions

/-! ### Declarations -/

theorem settles_qualifiers (register volatile : Bool) :
    Settles k ts false fun n => qualifiers n register volatile := by
  refine settles_loop (p := fun _ fuel s => qualifiers fuel s.1 s.2)
    (fun fuel s us _ hrest => settles_kind?_bind ?_) (register, volatile)
  cases us with
  | nil => exact settles_pure _
  | cons t us =>
    dsimp only [List.head?_cons, Option.map_some]
    split
    · next hkind =>
      exact settles_advance_bind ((Option.some.inj hkind) ▸ passable_keyword _)
        (hrest (true, s.2) us (by simp))
    · next hkind =>
      exact settles_advance_bind ((Option.some.inj hkind) ▸ passable_keyword _)
        (hrest (s.1, true) us (by simp))
    · exact settles_pure _

theorem settles_declaredType : Settles k ts true fun _ => declaredType := by
  refine settles_current?_bind ?_
  cases ts with
  | nil => exact settles_throw (by simp)
  | cons t ts =>
    dsimp only [List.head?_cons]
    split
    · next hkind => exact settles_advance_bind (hkind ▸ passable_keyword _) (settles_pure _)
    · next hkind => exact settles_advance_bind (hkind ▸ passable_keyword _) (settles_pure _)
    · exact settles_throw (by simp)

theorem settles_registerOf (name : String) (line : Nat) :
    Settles k ts false fun _ => registerOf name line := by
  unfold registerOf
  split
  · split
    · split
      · exact settles_pure _
      · exact settles_throw (by simp)
    · exact settles_throw (by simp)
  · exact settles_throw (by simp)

theorem settles_initial : Settles k ts false initial :=
  settles_accept_bind (passable_symbol _) (fun _ _ => settles_exprAt.map some) (settles_pure none)

/-- The semicolon behind what was read. -/
theorem settles_semicolon (a : α) :
    Settles k ts costs fun _ => symbol .semicolon >>= fun _ => pure a :=
  (settles_symbol _).andThen fun _ _ _ => settles_pure a

theorem settles_arrayDecl (name : String) (register volatile : Bool) :
    Settles k ts costs fun n => arrayDecl n name register volatile := by
  refine settles_exprAt.andThen fun size us _ => (settles_symbol _).andThen fun _ vs _ => ?_
  refine settles_accept_bind (passable_symbol _) (fun ws _ => ?_) (settles_semicolon _)
  refine (settles_symbol _).andThen fun _ xs _ => ?_
  exact ((settles_itemsUntil (fun _ _ => settles_exprAt) _).map some).andThen fun init _ _ =>
    settles_semicolon _

theorem settles_pointerDecl (name : String) (register volatile : Bool) :
    Settles k ts costs fun n => pointerDecl n name register volatile :=
  settles_initial.bind fun _ _ _ => settles_semicolon _

theorem settles_varDecl (name : Token) (type : IntType) (register volatile : Bool) :
    Settles k ts costs fun n => varDecl n name type register volatile := by
  cases register with
  | false => exact settles_initial.bind fun _ _ _ => settles_semicolon _
  | true =>
    refine ((settles_registerOf name.text name.line).map some).bind fun number us _ => ?_
    exact settles_initial.bind fun _ _ _ => settles_semicolon _

theorem settles_declAt : Settles k ts costs declAt := by
  refine (settles_qualifiers false false).bind fun words us _ =>
    settles_declaredType.andThen fun type vs _ => ?_
  refine (settles_accept (passable_symbol _)).bind fun pointer ws _ => ?_
  refine (settles_expect passable_identifier _).andThen fun name xs _ => ?_
  refine settles_accept_bind (passable_symbol _) (fun ys _ => ?_) ?_
  · exact (settles_arrayDecl _ _ _).map Decl.array
  · cases pointer with
    | true => exact (settles_pointerDecl _ _ _).map Decl.pointer
    | false => exact (settles_varDecl _ _ _ _).map Decl.var

/-! ### Simple statements -/

section SimpleStatements

variable {t : Token}

theorem settles_assigned : Settles k ts costs assigned :=
  (settles_symbol _).andThen fun _ _ _ => settles_exprAt.andThen fun value _ _ =>
    settles_semicolon value

theorem settles_assignmentAt : Settles k ts costs assignmentAt := by
  refine settles_current?_bind ?_
  cases ts with
  | nil => exact settles_throw (by simp)
  | cons t ts =>
    dsimp only [List.head?_cons]
    split
    · next hkind =>
      refine settles_advance_bind (hkind ▸ passable_symbol _) ?_
      exact settles_exprAt.andThen fun pointer _ _ =>
        settles_assigned.map (Stmt.assignDeref pointer)
    · next hkind =>
      refine settles_advance_bind (hkind ▸ passable_identifier) ?_
      refine settles_accept_bind (passable_symbol _) (fun us _ => ?_)
        (settles_assigned.map (Stmt.assign t.text))
      refine settles_exprAt.andThen fun position vs _ => (settles_symbol _).andThen fun _ ws _ => ?_
      exact settles_assigned.map (Stmt.assignIndex t.text position)
    · exact settles_throw (by simp)

/-- A name and the symbol behind it, both of which are known. -/
theorem settles_advance_twice {p : Nat → Parse α} {s : Symbol} (ht : t.kind = .identifier)
    (hnext : (t :: ts)[1]?.map Token.kind = some (.symbol s)) (h : ∀ us, Settles k us false p) :
    Settles k (t :: ts) costs fun n => (do let _ ← advance; let _ ← advance; p n) := by
  obtain ⟨u, hu, hkind⟩ := Option.map_eq_some_iff.mp hnext
  obtain ⟨us, rfl⟩ : ∃ us, ts = u :: us := by
    cases ts with
    | nil => cases hu
    | cons v us => exact ⟨us, congrArg (· :: us) (Option.some.inj hu)⟩
  refine settles_advance_bind (ht ▸ passable_identifier) ?_
  exact settles_advance_bind (hkind ▸ passable_symbol s) (h us)

theorem settles_namedStatement (ht : t.kind = .identifier) :
    Settles k (t :: ts) costs fun n => namedStatement n t := by
  refine settles_next?_bind ?_
  split
  · exact settles_exprAt.andThen fun e _ _ => settles_semicolon _
  · exact settles_assignmentAt
  · exact settles_assignmentAt
  · next hnext => exact settles_advance_twice ht hnext fun _ => settles_semicolon _
  · next hnext => exact settles_advance_twice ht hnext fun _ => settles_semicolon _
  · exact settles_throw (by simp)

theorem settles_returnStatement (ht : t.kind = .keyword .returnKw) :
    Settles k (t :: ts) costs returnStatement := by
  refine settles_advance_bind (ht ▸ passable_keyword _) (settles_kind?_bind ?_)
  split
  · split
    · exact settles_semicolon _
    · exact (settles_exprAt.map some).andThen fun value _ _ => settles_semicolon _
  · exact settles_semicolon _

theorem settles_asmStatement (ht : t.kind = .keyword .asm) :
    Settles k (t :: ts) costs fun _ => asmStatement := by
  refine settles_advance_bind (ht ▸ passable_keyword _) ?_
  exact (settles_expect (by simp [Kind.Passable]) _).andThen fun block _ _ => settles_semicolon _

end SimpleStatements

/-! ### Loops, branches and blocks -/

section Statements

variable {t : Token} {stmt : Nat → Parse Stmt}

theorem settles_condition : Settles k ts true condition := by
  refine (settles_symbol _).andThen fun _ us _ => settles_exprAt.andThen fun e _ _ => ?_
  exact (settles_symbol _).andThen fun _ _ _ => settles_pure e

theorem settles_forVariable {w : Keyword} (ht : t.kind = .keyword w) (type : IntType) :
    Settles k (t :: ts) costs fun n => forVariable n type := by
  refine settles_advance_bind (ht ▸ passable_keyword w)
    ((settles_identifier _).andThen fun name us _ => ?_)
  exact settles_initial.map fun init => ForInit.declare { name, init, type }

theorem settles_forInit : Settles k ts false forInit := by
  refine settles_current?_bind ?_
  cases ts with
  | nil => exact settles_pure none
  | cons t ts =>
    dsimp only [List.head?_cons]
    split
    · next hkind => exact (settles_forVariable hkind _).map some
    · next hkind => exact (settles_forVariable hkind _).map some
    · next hkind =>
      refine settles_next?_bind ?_
      split
      · next hnext =>
        refine settles_advance_twice hkind hnext fun us => ?_
        exact settles_exprAt.map fun e => some (ForInit.assign t.text e)
      · exact settles_pure none
    · exact settles_pure none

theorem settles_forCondition : Settles k ts false forCondition := by
  refine settles_kind?_bind ?_
  split
  · exact settles_pure none
  · split
    · exact settles_pure none
    · exact settles_exprAt.map some

theorem settles_forStep : Settles k ts false forStep := by
  refine settles_current?_bind ?_
  cases ts with
  | nil => exact settles_pure none
  | cons t ts =>
    dsimp only [List.head?_cons]
    split
    · next hkind =>
      refine settles_advance_bind (hkind ▸ passable_symbol _) ?_
      exact (settles_identifier _).andThen fun x _ _ => settles_pure _
    · next hkind =>
      refine settles_advance_bind (hkind ▸ passable_symbol _) ?_
      exact (settles_identifier _).andThen fun x _ _ => settles_pure _
    · next hkind =>
      refine settles_advance_bind (hkind ▸ passable_identifier) ?_
      refine settles_accept_bind (passable_symbol _) (fun _ _ => settles_pure _) ?_
      refine settles_accept_bind (passable_symbol _) (fun _ _ => settles_pure _) ?_
      refine settles_accept_bind (passable_symbol _) (fun us _ => ?_) (settles_pure none)
      exact settles_exprAt.map fun e => some (ForStep.assign t.text e)
    · exact settles_pure none

section Compound

variable (hstmt : ∀ us, us.length ≤ ts.length → Settles k us true stmt)

include hstmt

theorem settles_ifStatement (ht : t.kind = .keyword .ifKw) :
    Settles k (t :: ts) costs fun n => ifStatement n (stmt n) := by
  refine settles_advance_bind (ht ▸ passable_keyword _)
    (settles_condition.andThen fun c us hus => ?_)
  refine (hstmt us (by omega)).andThen fun body vs hvs => ?_
  refine settles_accept_bind (passable_keyword _) (fun ws hws => ?_) (settles_pure _)
  exact ((hstmt ws (by omega)).map (Stmt.ifElse c body)).weaken

theorem settles_whileStatement (ht : t.kind = .keyword .whileKw) :
    Settles k (t :: ts) costs fun n => whileStatement n (stmt n) := by
  refine settles_advance_bind (ht ▸ passable_keyword _)
    (settles_condition.andThen fun c us hus => ?_)
  exact ((hstmt us (by omega)).map (Stmt.whileLoop c)).weaken

theorem settles_doStatement (ht : t.kind = .keyword .doKw) :
    Settles k (t :: ts) costs fun n => doStatement n (stmt n) := by
  refine settles_advance_bind (ht ▸ passable_keyword _)
    ((hstmt ts (Nat.le_refl _)).andThen fun body us _ => ?_)
  refine (settles_keyword _).andThen fun _ vs _ => ?_
  exact settles_condition.andThen fun c _ _ => settles_semicolon _

theorem settles_forStatement (ht : t.kind = .keyword .forKw) :
    Settles k (t :: ts) costs fun n => forStatement n (stmt n) := by
  refine settles_advance_bind (ht ▸ passable_keyword _)
    ((settles_symbol _).andThen fun _ us hus => ?_)
  refine settles_forInit.bind fun init vs hvs => (settles_symbol _).andThen fun _ ws hws => ?_
  refine settles_forCondition.bind fun c xs hxs => (settles_symbol _).andThen fun _ ys hys => ?_
  refine settles_forStep.bind fun step zs hzs => (settles_symbol _).andThen fun _ ends hends => ?_
  exact ((hstmt ends (by omega)).map (Stmt.forLoop init c step)).weaken

theorem settles_statements (done : List Stmt) :
    Settles k ts false fun n => statements (stmt n) n done := by
  refine settles_loop (p := fun n fuel done => statements (stmt n) fuel done)
    (fun fuel done us hus hrest => settles_kind?_bind ?_) done
  split
  · exact settles_pure _
  · split
    · exact settles_pure _
    · exact (hstmt us hus).andThen fun s vs hvs => hrest _ vs hvs

end Compound

theorem settles_blockWith (hstmt : ∀ us, us.length < ts.length → Settles k us true stmt) :
    Settles k ts costs fun n => blockWith n (stmt n) := by
  refine (settles_symbol _).andThen fun _ us hus => ?_
  refine (settles_statements (fun vs hvs => hstmt vs (by omega)) []).bind fun body _ _ => ?_
  exact (settles_symbol _).andThen fun _ _ _ => settles_pure body

theorem settles_stmtWith (hinner : ∀ us, us.length < k → Settles (k + 1) us true stmt) :
    Settles (k + 1) ts true fun n => stmtWith n (stmt n) := by
  refine .of_lt fun hk => settles_current?_bind ?_
  cases ts with
  | nil => exact settles_throw (by simp)
  | cons t ts =>
    rw [List.length_cons] at hk
    have hstmt (us : List Token) (hus : us.length ≤ ts.length) : Settles (k + 1) us true stmt :=
      hinner us (by omega)
    dsimp only [List.head?_cons]
    split
    · exact settles_declAt.map Stmt.decl
    · exact settles_declAt.map Stmt.decl
    · exact settles_declAt.map Stmt.decl
    · exact settles_declAt.map Stmt.decl
    · next hkind =>
      refine settles_advance_bind (hkind ▸ passable_symbol _) ?_
      exact (settles_identifier _).andThen fun x _ _ => settles_semicolon _
    · next hkind =>
      refine settles_advance_bind (hkind ▸ passable_symbol _) ?_
      exact (settles_identifier _).andThen fun x _ _ => settles_semicolon _
    · next hkind => exact settles_returnStatement hkind
    · next hkind => exact settles_ifStatement hstmt hkind
    · next hkind => exact settles_doStatement hstmt hkind
    · next hkind => exact settles_whileStatement hstmt hkind
    · next hkind => exact settles_forStatement hstmt hkind
    · next hkind => exact settles_advance_bind (hkind ▸ passable_keyword _) (settles_semicolon _)
    · next hkind => exact settles_advance_bind (hkind ▸ passable_keyword _) (settles_semicolon _)
    · next hkind => exact settles_asmStatement hkind
    · have hblock : Settles (k + 1) (t :: ts) true fun n => blockWith n (stmt n) :=
        settles_blockWith fun us hus => hstmt us (Nat.le_of_lt_succ hus)
      exact hblock.map Stmt.block
    · next hkind => exact settles_namedStatement hkind
    · refine settles_next?_bind ?_
      split
      · exact settles_assignmentAt
      · exact settles_throw (by simp)
    · exact settles_throw (by simp)

theorem settles_stmtAt : Settles k ts true stmtAt :=
  settles_nest (fun _ => rfl) fun _ _ _ hinner => settles_stmtWith hinner

theorem settles_blockAt : Settles k ts costs blockAt := settles_blockWith fun _ _ => settles_stmtAt

end Statements

/-! ### Functions and programs -/

section Programs

variable {t : Token}

theorem settles_parameter : Settles k ts true fun _ => parameter := by
  refine settles_accept_bind (passable_keyword _) (fun us _ => ?_) (settles_identifier _)
  exact (settles_accept (passable_symbol _)).bind fun _ _ _ => (settles_identifier _).weaken

theorem settles_nextParameter : Settles k ts true fun _ => nextParameter := by
  refine settles_current?_bind ?_
  split
  · exact settles_throw (by simp)
  · exact settles_parameter

theorem settles_moreParameters (done : List String) :
    Settles k ts false fun n => moreParameters n done := by
  refine settles_loop (p := fun _ fuel done => moreParameters fuel done)
    (fun fuel done us _ hrest => ?_) done
  refine settles_accept_bind (passable_symbol _) (fun vs hvs => ?_) (settles_pure _)
  exact settles_nextParameter.andThen fun x ws hws => hrest _ ws (by omega)

theorem settles_parameters : Settles k ts false parameters := by
  refine settles_kind?_bind ?_
  split
  · exact settles_pure []
  · split
    · exact settles_pure []
    · exact settles_parameter.andThen fun x us _ => settles_moreParameters [x]

theorem settles_functionAt : Settles k ts costs functionAt := by
  refine (settles_accept (passable_keyword _)).bind fun interrupt us _ =>
    (settles_keyword _).andThen fun _ vs _ => ?_
  refine (settles_expect passable_identifier _).andThen fun name ws _ =>
    (settles_symbol _).andThen fun _ xs _ => ?_
  refine settles_parameters.bind fun params ys _ => (settles_symbol _).andThen fun _ zs _ => ?_
  dsimp only
  split
  · exact settles_throw (by simp)
  · exact settles_blockAt.andThen fun body _ _ => settles_pure _

theorem settles_itemAt : Settles k (t :: ts) costs fun n => itemAt n t := by
  unfold itemAt
  split
  · exact settles_functionAt.map Item.function
  · refine settles_next?_bind ?_
    split
    · exact settles_functionAt.map Item.function
    · exact settles_throw (by simp)
  · exact settles_declAt.map Item.global
  · exact settles_declAt.map Item.global
  · exact settles_declAt.map Item.global
  · exact settles_declAt.map Item.global
  · exact settles_throw (by simp)

theorem settles_items (functions : List Func) (globals : List Decl) :
    Settles k ts false fun n => items n n functions globals := by
  refine settles_loop (p := fun n fuel s => items n fuel s.1 s.2)
    (fun fuel s us _ hrest => settles_current?_bind ?_) (functions, globals)
  cases us with
  | nil => exact settles_pure _
  | cons t us =>
    dsimp only [List.head?_cons]
    split
    · exact settles_pure _
    · refine settles_itemAt.andThen fun item vs hvs => ?_
      split
      · next f => exact hrest (f :: s.1, s.2) vs hvs
      · next d => exact hrest (s.1, d :: s.2) vs hvs

theorem settles_programAt : Settles k ts false programAt := by
  refine (settles_items [] []).bind fun p us _ => ?_
  split
  · exact settles_pure p
  · exact settles_throw (by simp)

/-- The parts of a program are read until nothing is ahead or the token that ends the input is. -/
theorem items_stop {inner : Nat} :
    ∀ (fuel : Nat) {functions : List Func} {globals : List Decl} {c c' : Cursor} {p : Program},
      items inner fuel functions globals c = (.ok p, c') →
      ∀ t ∈ c'.ahead.head?, t.kind = .endOfInput := by
  intro fuel
  induction fuel with
  | zero =>
    intro functions globals c c' p h
    cases congrArg Prod.fst h
  | succ fuel ih =>
    intro functions globals c c' p h
    rw [items, bind_ok (current?_apply c)] at h
    cases hhead : c.ahead.head? with
    | none =>
      rw [hhead] at h
      cases h
      simp [hhead]
    | some t =>
      rw [hhead] at h
      dsimp only at h
      split at h
      · next hkind =>
        cases h
        simpa [hhead] using hkind
      · obtain ⟨item, c₁, -, hrest⟩ := bind_eq_ok h
        split at hrest
        · exact ih hrest
        · exact ih hrest

end Programs

/-! ### What reading from a cursor comes to -/

/-- A reader that is given a bound, and the same one with the bound that it takes from the cursor.
From every cursor it comes to an end that a larger bound does not change, with the tokens as they
were and the cursor between where it was and the end of the tokens; a value has moved the cursor. -/
structure Progresses (readAt : Nat → Parse α) (read : Parse α) : Prop where
  enough : ∀ (c : Cursor) (n : Nat), c.ahead.length < n → readAt n c = read c
  notDeep : ∀ c : Cursor, (read c).1 ≠ .error .tooDeep
  tokens : ∀ c : Cursor, (read c).2.tokens = c.tokens
  value : ∀ (c c' : Cursor) (a : α), read c = (.ok a, c') →
    c.position < c'.position ∧ c'.position ≤ c.tokens.length
  error : ∀ (c c' : Cursor) (e : ParseError), read c = (.error e, c') →
    c.position ≤ c'.position ∧ c'.position ≤ c.tokens.length

section Outcomes

variable {c c' : Cursor} {o : Except ParseError α}

theorem MovesOn.tokens_eq (h : MovesOn c costs (o, c')) : c'.tokens = c.tokens := by
  obtain ⟨us, hahead, hpassed, -, -⟩ := h.behind
  dsimp only at hahead hpassed
  simp [Cursor.tokens, hahead, hpassed]

theorem MovesOn.position_le (h : MovesOn c costs (o, c')) :
    c.position ≤ c'.position ∧ c'.position ≤ c.tokens.length := by
  obtain ⟨us, hahead, hpassed, -, -⟩ := h.behind
  dsimp only at hahead hpassed
  simp only [Cursor.position, Cursor.tokens, hahead, hpassed, List.length_append,
    List.length_reverse]
  omega

theorem MovesOn.position_lt {a : α} (h : MovesOn c true (.ok a, c')) :
    c.position < c'.position := by
  obtain ⟨us, -, hpassed, -, hcost⟩ := h.behind
  have hpos : 0 < us.length := hcost a rfl rfl
  dsimp only at hpassed
  simp only [Cursor.position, hpassed, List.length_append, List.length_reverse]
  omega

/-- A reader that settles from every number of tokens on. -/
theorem progresses_of_settles {readAt : Nat → Parse α} (h : ∀ k ts, Settles k ts true readAt) :
    Progresses readAt (do readAt (← bound)) := by
  have hbound (c : Cursor) : (do readAt (← bound) : Parse α) c = readAt (c.ahead.length + 1) c :=
    bind_ok (bound_apply c)
  have hsettled (c : Cursor) := h (c.ahead.length + 1) c.ahead (Nat.lt_succ_self _)
  have hmoves (c : Cursor) : MovesOn c true (readAt (c.ahead.length + 1) c) :=
    (hsettled c _ (Nat.le_refl _) c.passed).2
  refine ⟨?_, ?_, ?_, ?_, ?_⟩
  · intro c n hn
    rw [hbound]
    exact (hsettled c n hn c.passed).1
  · intro c
    rw [hbound]
    exact (hmoves c).notDeep
  · intro c
    rw [hbound]
    exact (hmoves c).tokens_eq
  · intro c c' a hread
    have hend := hmoves c
    rw [← hbound, hread] at hend
    exact ⟨hend.position_lt, hend.position_le.2⟩
  · intro c c' e hread
    have hend := hmoves c
    rw [← hbound, hread] at hend
    exact hend.position_le

end Outcomes

/-- Reading a statement, an expression, a block, a declaration, an assignment or a function makes
progress from every cursor. So reading a program ends, on whatever tokens; and where it gives one,
it has passed neither an error nor the end of the input and stands at the end of the input or of the
tokens. -/
theorem reading_progress : Progresses stmtAt stmt ∧ Progresses exprAt expr ∧
    Progresses blockAt block ∧ Progresses declAt decl ∧
      Progresses assignmentAt assignment ∧ Progresses functionAt function ∧
      ∀ ts : List Token, (∀ n, ts.length < n → (programAt n).runOn ts = program.runOn ts) ∧
        (program.runOn ts).1 ≠ .error .tooDeep ∧
        ∀ p c, program.runOn ts = (.ok p, c) →
          (∀ t ∈ ts.take c.position, t.kind ≠ .error ∧ t.kind ≠ .endOfInput) ∧
          (c.position = ts.length ∨ ∃ t, ts[c.position]? = some t ∧ t.kind = .endOfInput) := by
  refine ⟨?_, ?_, ?_, ?_, ?_, ?_, ?_⟩
  · exact progresses_of_settles fun _ _ => settles_stmtAt
  · exact progresses_of_settles fun _ _ => settles_exprAt
  · exact progresses_of_settles fun _ _ => settles_blockAt
  · exact progresses_of_settles fun _ _ => settles_declAt
  · exact progresses_of_settles fun _ _ => settles_assignmentAt
  · exact progresses_of_settles fun _ _ => settles_functionAt
  · intro ts
    have hprogram : program.runOn ts = (programAt (ts.length + 1)).runOn ts :=
      bind_ok (bound_apply (Cursor.ofTokens ts))
    have hsettled (n : Nat) (hn : ts.length < n) :=
      settles_programAt (Nat.lt_succ_self ts.length) n hn []
    rw [hprogram]
    refine ⟨fun n hn => (hsettled n hn).1, (hsettled _ (Nat.lt_succ_self _)).2.notDeep, ?_⟩
    intro p c hread
    have hmoves : MovesOn (Cursor.ofTokens ts) false ((programAt (ts.length + 1)).runOn ts) :=
      (hsettled _ (Nat.lt_succ_self _)).2
    rw [hread] at hmoves
    obtain ⟨us, hahead, hpassed, hkinds, -⟩ := hmoves.behind
    have hts : ts = us ++ c.ahead := hahead
    have hposition : c.position = us.length := by
      simpa [Cursor.ofTokens, Cursor.position] using congrArg List.length hpassed
    obtain ⟨p', c₁, hitems, hrest⟩ := bind_eq_ok hread
    have hc : c₁ = c := by
      split at hrest
      · exact congrArg Prod.snd hrest
      · cases congrArg Prod.fst hrest
    subst hc
    have hstop := items_stop _ hitems
    rw [hposition]
    refine ⟨?_, ?_⟩
    · rw [hts, List.take_left]
      exact hkinds
    · cases hc : c₁.ahead with
      | nil =>
        left
        rw [hts, hc, List.append_nil]
      | cons t rest =>
        right
        refine ⟨t, ?_, hstop t (by simp [hc])⟩
        rw [hts, hc]
        simp

/-- The tokens of `function main() { return x; }`, with an error behind the end of the input. -/
def errorBehindEnd : List Token :=
  [⟨.keyword .function, "function", {}⟩, ⟨.identifier, "main", {}⟩, ⟨.symbol .leftParen, "(", {}⟩,
    ⟨.symbol .rightParen, ")", {}⟩, ⟨.symbol .leftBrace, "\x7b", {}⟩,
    ⟨.keyword .returnKw, "return", {}⟩, ⟨.identifier, "x", {}⟩, ⟨.symbol .semicolon, ";", {}⟩,
    ⟨.symbol .rightBrace, "\x7d", {}⟩, ⟨.endOfInput, "", {}⟩, ⟨.error, "@", {}⟩]

/-- Read as a program these tokens are passed up to the end of the input; the statement in them
starts at the sixth and takes three. -/
theorem errorBehindEnd_progress :
    ∃ p s c c', program.runOn errorBehindEnd = (.ok p, c) ∧ c.position = 9 ∧
      (∀ t ∈ errorBehindEnd.take 9, t.kind ≠ .error ∧ t.kind ≠ .endOfInput) ∧
      (9 = errorBehindEnd.length ∨ ∃ t, errorBehindEnd[9]? = some t ∧ t.kind = .endOfInput) ∧
      stmt ⟨(errorBehindEnd.take 5).reverse, errorBehindEnd.drop 5⟩ = (.ok s, c') ∧
      c'.position = 8 ∧ 5 < 8 := by
  obtain ⟨hstmt, -, -, -, -, -, hprogram⟩ := reading_progress
  obtain ⟨-, -, hvalue⟩ := hprogram errorBehindEnd
  have hread : program.runOn errorBehindEnd =
      (.ok ⟨[⟨"main", [], [.ret (some (.name "x"))], false⟩], []⟩,
        ⟨(errorBehindEnd.take 9).reverse, errorBehindEnd.drop 9⟩) := rfl
  have hreturn : stmt ⟨(errorBehindEnd.take 5).reverse, errorBehindEnd.drop 5⟩ =
      (.ok (.ret (some (.name "x"))), ⟨(errorBehindEnd.take 8).reverse, errorBehindEnd.drop 8⟩) :=
      rfl
  obtain ⟨hpassed, hstop⟩ := hvalue _ _ hread
  exact ⟨_, _, _, _, hread, rfl, hpassed, hstop, hreturn, rfl, (hstmt.value _ _ _ hreturn).1⟩

end Parse

end WordC
