import WordC.Proofs.Operands
import WordC.Proofs.Reading
import WordC.Stmt.Parse

/-!
# Reading keeps operands

A reader that gives a tree has passed some tokens, and the operands of the tree are operands of
these tokens, in their order and none of them twice. It leaves one out at two places only: of
several indices behind a name only the last one counts, and a name with nothing done to it at the
end of the head of a loop gives no step. The proofs follow the readers, each with what it says about
the tokens that it has passed; for an expression this includes whether they end in an index, since a
bracket behind it is then one too many.
-/

namespace WordC.Parse

open Step Trail

variable {α β : Type} {ts : List Token}

/-! ### What a reader has passed -/

/-- With the tokens `ts` ahead, a reader that gives a value has passed some of them, which stand in
the relation `R` to it. -/
def PassesFrom (ts : List Token) (p : Parse α) (R : List Token → α → Prop) : Prop :=
  ∀ passed a c, p ⟨passed, ts⟩ = (.ok a, c) →
    ∃ us, ts = us ++ c.ahead ∧ c.passed = us.reverse ++ passed ∧ R us a

/-- The same whatever is ahead. -/
def Passes (p : Parse α) (R : List Token → α → Prop) : Prop := ∀ ts, PassesFrom ts p R

variable {Q : List Token → α → Prop} {R : List Token → β → Prop}

theorem passesFrom_throw (e : ParseError) : PassesFrom ts (throw e : Parse β) R := by
  intro passed b c h
  cases congrArg Prod.fst h

theorem passesFrom_pure {b : β} (h : R [] b) : PassesFrom ts (pure b) R := by
  intro passed b' c hpure
  cases hpure
  exact ⟨[], rfl, rfl, h⟩

variable {x : Parse α} {t : Token} {w : Keyword}

theorem PassesFrom.bind {f : α → Parse β} (hx : PassesFrom ts x Q)
    (hf : ∀ us a, Q us a → Passes (f a) fun vs b => R (us ++ vs) b) :
    PassesFrom ts (x >>= f) R := by
  intro passed b c h
  obtain ⟨a, c₁, hxa, hfb⟩ := bind_eq_ok h
  obtain ⟨us, hts, hpassed, hq⟩ := hx passed a c₁ hxa
  obtain ⟨vs, hahead, hpassed', hr⟩ := hf us a hq c₁.ahead c₁.passed b c hfb
  refine ⟨us ++ vs, ?_, ?_, hr⟩
  · rw [hts, hahead, List.append_assoc]
  · rw [hpassed', hpassed, List.reverse_append, List.append_assoc]

theorem Passes.bind {f : α → Parse β} (hx : Passes x Q)
    (hf : ∀ us a, Q us a → Passes (f a) fun vs b => R (us ++ vs) b) :
    PassesFrom ts (x >>= f) R := (hx ts).bind hf

/-- Values that are passed on as parts of others. -/
theorem Passes.map (g : α → β) (hx : Passes x Q) (hg : ∀ us a, Q us a → R us (g a)) :
    Passes (g <$> x) R :=
  fun _ => hx.bind fun us a ha _ => passesFrom_pure (by simpa using hg us a ha)

theorem Passes.mono {x : Parse β} {S : List Token → β → Prop} (hx : Passes x S)
    (h : ∀ us b, S us b → R us b) : Passes x R := by
  intro ts passed b c hb
  obtain ⟨us, hts, hpassed, hs⟩ := hx ts passed b c hb
  exact ⟨us, hts, hpassed, h us b hs⟩

theorem passesFrom_current?_bind {f : Option Token → Parse β} (h : PassesFrom ts (f ts.head?) R) :
    PassesFrom ts (current? >>= f) R := by
  intro passed b c hb
  rw [bind_ok (current?_apply _)] at hb
  exact h passed b c hb

theorem passesFrom_kind?_bind {f : Option Kind → Parse β}
    (h : PassesFrom ts (f (ts.head?.map Token.kind)) R) : PassesFrom ts (kind? >>= f) R := by
  intro passed b c hb
  rw [bind_ok (kind?_apply _)] at hb
  exact h passed b c hb

theorem passesFrom_next?_bind {f : Option Token → Parse β} (h : PassesFrom ts (f ts[1]?) R) :
    PassesFrom ts (next? >>= f) R := by
  intro passed b c hb
  have hnext : next? ⟨passed, ts⟩ = (.ok ts[1]?, ⟨passed, ts⟩) := rfl
  rw [bind_ok hnext] at hb
  exact h passed b c hb

theorem passesFrom_advance_bind {f : Token → Parse β}
    (h : PassesFrom ts (f t) fun us b => R (t :: us) b) :
    PassesFrom (t :: ts) (advance >>= f) R := by
  intro passed b c hb
  rw [bind_ok (advance_cons t passed ts)] at hb
  obtain ⟨us, hts, hpassed, hr⟩ := h (t :: passed) b c hb
  refine ⟨t :: us, ?_, ?_, hr⟩
  · rw [hts, List.cons_append]
  · rw [hpassed, List.reverse_cons, List.append_assoc, List.singleton_append]

theorem passesFrom_expect_bind {k : Kind} {label : Option String} {f : Token → Parse β}
    (h : ∀ t, t.kind = k → Passes (f t) fun us b => R (t :: us) b) :
    PassesFrom ts (expect k label >>= f) R := by
  have hexpect : PassesFrom ts (expect k label) fun us t => us = [t] ∧ t.kind = k := by
    refine passesFrom_current?_bind ?_
    cases ts with
    | nil => exact passesFrom_throw _
    | cons t ts =>
      dsimp only [List.head?_cons]
      split
      · next hk =>
        intro passed a c ha
        rw [advance_cons] at ha
        cases ha
        exact ⟨[t], rfl, rfl, rfl, hk⟩
      · exact passesFrom_throw _
  refine hexpect.bind ?_
  rintro us t ⟨rfl, hk⟩
  exact h t hk

theorem passesFrom_symbol_bind {s : Symbol} {f : Unit → Parse β}
    (h : ∀ t, t.kind = .symbol s → Passes (f ()) fun us b => R (t :: us) b) :
    PassesFrom ts (symbol s >>= f) R := by
  have hsymbol : PassesFrom ts (symbol s) fun us _ => ∃ t, us = [t] ∧ t.kind = .symbol s :=
    passesFrom_expect_bind fun t ht _ => passesFrom_pure ⟨t, rfl, ht⟩
  refine hsymbol.bind ?_
  rintro us _ ⟨t, rfl, ht⟩
  exact h t ht

theorem passesFrom_keyword_bind {f : Unit → Parse β}
    (h : ∀ t, t.kind = .keyword w → Passes (f ()) fun us b => R (t :: us) b) :
    PassesFrom ts (keyword w >>= f) R := by
  have hkeyword : PassesFrom ts (keyword w) fun us _ => ∃ t, us = [t] ∧ t.kind = .keyword w :=
    passesFrom_expect_bind fun t ht _ => passesFrom_pure ⟨t, rfl, ht⟩
  refine hkeyword.bind ?_
  rintro us _ ⟨t, rfl, ht⟩
  exact h t ht

theorem passesFrom_identifier_bind {label : String} {f : String → Parse β}
    (h : ∀ t, t.kind = .identifier → Passes (f t.text) fun us b => R (t :: us) b) :
    PassesFrom ts (identifier label >>= f) R := by
  have hname : PassesFrom ts (identifier label) fun us x => ∃ t, us = [t] ∧
      t.kind = .identifier ∧ t.text = x :=
    passesFrom_expect_bind fun t ht _ => passesFrom_pure ⟨t, rfl, ht, rfl⟩
  refine hname.bind ?_
  rintro us _ ⟨t, rfl, ht, rfl⟩
  exact h t ht

theorem passesFrom_accept_bind {k : Kind} {f : Bool → Parse β}
    (htrue : ∀ t, t.kind = k → Passes (f true) fun us b => R (t :: us) b)
    (hfalse : PassesFrom ts (f false) R) : PassesFrom ts (accept k >>= f) R := by
  intro passed b c hb
  by_cases hk : ∃ t us, ts = t :: us ∧ t.kind = k
  · obtain ⟨t, us, rfl, hk⟩ := hk
    rw [bind_ok (accept_cons hk passed us)] at hb
    obtain ⟨vs, hus, hpassed, hr⟩ := htrue t hk us (t :: passed) b c hb
    refine ⟨t :: vs, ?_, ?_, hr⟩
    · rw [hus, List.cons_append]
    · rw [hpassed, List.reverse_cons, List.append_assoc, List.singleton_append]
  · have hne : ∀ t ∈ ts.head?, t.kind ≠ k := by
      intro t ht hkind
      obtain ⟨us, rfl⟩ : ∃ us, ts = t :: us := List.head?_eq_some_iff.mp ht
      exact hk ⟨t, us, rfl, hkind⟩
    rw [bind_ok (accept_of_ne hne)] at hb
    exact hfalse passed b c hb

/-! ### Expressions -/

/-- What is known of the tokens that an expression was read from. -/
structure ReadExpr (us : List Token) (e : Expr) : Prop where
  kept : ∀ σ : Trail, σ.bare = false → σ.Kept us e.operands
  calm : ∀ σ : Trail, σ.ended = false → (σ.after us).Calm
  /-- Behind a name the first index is none too many. -/
  name : ∀ x, e = .name x → ∀ σ : Trail, (σ.after us).indexed = false
  /-- A second index is, and the first one has operands. -/
  index : ∀ a i, e = .index a i → i.operands ≠ [] ∧ ∀ σ : Trail, (σ.after us).indexed = true
  operands_ne : e.operands ≠ []

theorem readExpr_literal {n : Nat} (ht : t.kind = .literal) (hn : Text.literal? t.text = some n) :
    ReadExpr [t] (.literal n) where
  kept σ _ := by
    have h : σ.Kept [t] (t.operand?.toList ++ []) := (kept_nil _).cons (by rw [ht]; rfl)
    simpa [Token.operand?, ht, hn] using h
  calm σ _ := by
    rw [after_cons, ht]
    exact ⟨rfl, rfl⟩
  name x h := by cases h
  index a i h := by cases h
  operands_ne := by simp

theorem readExpr_name (ht : t.kind = .identifier) : ReadExpr [t] (.name t.text) where
  kept σ _ := by
    rw [Expr.operands]
    exact (kept_nil _).name ht
  calm σ hσ := by
    rw [after_cons, ht]
    exact ⟨rfl, hσ⟩
  name x _ σ := by
    rw [after_cons, ht]
    rfl
  index a i h := by cases h
  operands_ne := by simp

section Combined

variable {t l r : Token} {us vs ws : List Token} {d e i : Expr} {x : String}

/-- Parentheses change nothing, also not behind which expression a bracket is one too many. -/
theorem ReadExpr.parens (h : ReadExpr us e) (hl : l.kind = .symbol .leftParen)
    (hr : r.kind = .symbol .rightParen) : ReadExpr (l :: (us ++ [r])) e where
  kept σ _ := by
    have hcalm := h.calm (σ.next (.symbol .leftParen)) rfl
    have hinner :=
      (h.kept (σ.next (.symbol .leftParen)) rfl).close hr (by rw [loses_rightParen, hcalm.2])
    exact hinner.symbol hl rfl
  calm σ _ := by
    rw [after_cons, after_append, after_cons, hr]
    exact calm_symbol (by decide) _
  name x hx σ := by
    rw [after_cons, after_append, after_cons, hr]
    exact h.name x hx _
  index a i hi := by
    obtain ⟨hne, hindexed⟩ := h.index a i hi
    refine ⟨hne, fun σ => ?_⟩
    rw [after_cons, after_append, after_cons, hr]
    exact hindexed _
  operands_ne := h.operands_ne

theorem isPlain_op (op : BinOp) : op.symbol.IsPlain ∧ op.symbol ≠ .semicolon := by
  cases op <;> decide

theorem ReadExpr.binary {op : BinOp} (hd : ReadExpr us d) (ht : t.kind = .symbol op.symbol)
    (he : ReadExpr vs e) : ReadExpr (us ++ t :: vs) (.binary op d e) where
  kept σ hσ := by
    rw [Expr.operands]
    exact (hd.kept σ hσ).append ((he.kept _ rfl).symbol ht (loses_plain (isPlain_op op).1 _))
  calm σ _ := by
    rw [after_append, after_cons, ht]
    exact he.calm _ (calm_symbol (isPlain_op op).2 _).1
  name x h := by cases h
  index a i h := by cases h
  operands_ne := by
    rw [Expr.operands]
    exact List.append_ne_nil_of_left_ne_nil hd.operands_ne _

/-- What a sign is. -/
theorem signOf?_eq_some {k : Kind} {node : Expr → Expr} (h : signOf? k = some node) :
    ∃ s : Symbol, k = .symbol s ∧ s.IsPlain ∧ s ≠ .semicolon ∧
      ∀ e, (node e).operands = e.operands ∧ (∀ x, node e ≠ .name x) ∧
      ∀ a i, node e ≠ .index a i := by
  unfold signOf? at h
  split at h
  case h_5 => cases h
  all_goals
    obtain rfl := Option.some.inj h
    refine ⟨_, rfl, by decide, by decide, fun e => ⟨by rw [Expr.operands], ?_, ?_⟩⟩
    · intro x hx
      cases hx
    · intro a i hi
      cases hi

theorem ReadExpr.sign {node : Expr → Expr} (h : ReadExpr us e) (ht : signOf? t.kind = some node) :
    ReadExpr (t :: us) (node e) := by
  obtain ⟨s, hs, hplain, hsemicolon, hnode⟩ := signOf?_eq_some ht
  obtain ⟨hoperands, hname, hindex⟩ := hnode e
  refine ⟨?_, ?_, ?_, ?_, ?_⟩
  · intro σ _
    rw [hoperands]
    exact (h.kept _ rfl).symbol hs (loses_plain hplain σ)
  · intro σ _
    rw [after_cons, hs]
    exact h.calm _ (calm_symbol hsemicolon σ).1
  · exact fun x hx => absurd hx (hname x)
  · exact fun a i hi => absurd hi (hindex a i)
  · rw [hoperands]
    exact h.operands_ne

theorem readExpr_index (hi : ReadExpr vs i) (hr : r.kind = .symbol .rightBracket)
    (hkept :
      ∀ σ : Trail, σ.bare = false → σ.Kept (us ++ l :: (vs ++ [r])) (.name x :: i.operands)) :
    ReadExpr (us ++ l :: (vs ++ [r])) (.index x i) where
  kept σ hσ := by
    rw [Expr.operands]
    exact hkept σ hσ
  calm σ _ := by
    rw [after_append, after_cons, after_append, after_cons, hr]
    exact calm_symbol (by decide) _
  name y h := by cases h
  index a j hj := by
    obtain ⟨-, rfl⟩ := Expr.index.inj hj
    refine ⟨hi.operands_ne, fun σ => ?_⟩
    rw [after_append, after_cons, after_append, after_cons, hr]
    rfl
  operands_ne := by simp

/-- The first index behind a name. -/
theorem ReadExpr.index_name (h : ReadExpr us (.name x)) (hl : l.kind = .symbol .leftBracket)
    (hi : ReadExpr vs i) (hr : r.kind = .symbol .rightBracket) :
    ReadExpr (us ++ l :: (vs ++ [r])) (.index x i) := by
  refine readExpr_index hi hr fun σ hσ => ?_
  have hname := h.kept σ hσ
  rw [Expr.operands] at hname
  refine hname.append (((hi.kept _ rfl).close hr rfl).symbol hl ?_)
  rw [loses_leftBracket]
  exact h.name x rfl σ

/-- An index behind an index takes its place, so that the operands of the first one are left out. -/
theorem ReadExpr.index_index {j : Expr} (h : ReadExpr us (.index x j))
    (hl : l.kind = .symbol .leftBracket) (hi : ReadExpr vs i)
    (hr : r.kind = .symbol .rightBracket) : ReadExpr (us ++ l :: (vs ++ [r])) (.index x i) := by
  refine readExpr_index hi hr fun σ hσ => ?_
  obtain ⟨hne, hindexed⟩ := h.index x j rfl
  have hfirst := (h.kept σ hσ).1
  rw [Expr.operands] at hfirst
  have hsecond : i.operands.Sublist (operandsOf (l :: (vs ++ [r]))) :=
    (((hi.kept _ rfl).close hr rfl).symbol hl (loses_leftBracket {})).1
  refine kept_of_lossy ?_ ?_ ?_
  · rw [operandsOf_append]
    exact ((List.nil_sublist _).cons_cons _ |>.trans hfirst).append hsecond
  · have hlength := hfirst.length_le
    have hlength' := hsecond.length_le
    have hpos := List.length_pos_iff.mpr hne
    rw [operandsOf_append, List.length_append, List.length_cons]
    rw [List.length_cons] at hlength
    omega
  · rw [lossy_append, lossy, hl, loses_leftBracket, hindexed]
    simp

/-- What is known of the tokens that expressions between commas were read from. -/
structure ReadExprs (us : List Token) (es : List Expr) : Prop where
  kept : ∀ σ : Trail, σ.bare = false → σ.Kept us (Expr.allOperands es)
  calm : ∀ σ : Trail, σ.Calm → (σ.after us).Calm

theorem readExprs_nil : ReadExprs [] [] := ⟨fun σ _ => kept_nil σ, fun _ hσ => hσ⟩

theorem ReadExpr.singleton (h : ReadExpr us e) : ReadExprs us [e] where
  kept σ hσ := by simpa [Expr.allOperands] using h.kept σ hσ
  calm σ hσ := h.calm σ hσ.1

theorem ReadExprs.snoc {es : List Expr} (h : ReadExprs us es) (ht : t.kind = .symbol .comma)
    (he : ReadExpr vs e) : ReadExprs (us ++ t :: vs) (es ++ [e]) where
  kept σ hσ := by
    rw [Expr.allOperands_append]
    exact (h.kept σ hσ).append ((he.singleton.kept _ rfl).symbol ht rfl)
  calm σ _ := by
    rw [after_append, after_cons, ht]
    exact he.calm _ rfl

theorem ReadExprs.call {es : List Expr} (h : ReadExprs us es) (ht : t.kind = .identifier)
    (hl : l.kind = .symbol .leftParen) (hr : r.kind = .symbol .rightParen) :
    ReadExpr (t :: l :: (us ++ [r])) (.call t.text es) where
  kept σ _ := by
    have hcalm :=
      h.calm ((σ.next .identifier).next (.symbol .leftParen)) (calm_symbol (by decide) _)
    have hinner := (h.kept ((σ.next .identifier).next (.symbol .leftParen)) rfl).close hr
      (by rw [loses_rightParen, hcalm.2])
    rw [Expr.operands]
    exact (hinner.symbol hl rfl).name ht
  calm σ _ := by
    rw [after_cons, after_cons, after_append, after_cons, hr]
    exact calm_symbol (by decide) _
  name x h := by cases h
  index a i h := by cases h
  operands_ne := by simp

end Combined

section Inner

variable {expr : Parse Expr} (hexpr : Passes expr ReadExpr)
include hexpr

theorem passes_moreItems :
    ∀ (n : Nat) (done : List Expr) (us : List Token), ReadExprs us done.reverse →
    Passes (moreItems expr n done) fun vs es => ReadExprs (us ++ vs) es := by
  intro n
  induction n with
  | zero => exact fun _ _ _ _ => passesFrom_throw _
  | succ n ih =>
    intro done us hdone ts
    rw [moreItems]
    refine passesFrom_accept_bind (fun t ht ts => ?_) (passesFrom_pure (by simpa using hdone))
    rw [if_pos rfl]
    refine hexpr.bind fun vs e he => ?_
    have hmore : ReadExprs (us ++ t :: vs) (e :: done).reverse := by
      rw [List.reverse_cons]
      exact hdone.snoc ht he
    simpa using ih (e :: done) (us ++ t :: vs) hmore

theorem passes_itemsUntil (n : Nat) (s : Symbol) : Passes (itemsUntil n expr s)
    fun us es => ∃ vs t, us = vs ++ [t] ∧ ReadExprs vs es ∧ t.kind = .symbol s := by
  have hend {us : List Token} {es : List Expr} (h : ReadExprs us es) :
      Passes (symbol s >>= fun _ => pure es : Parse (List Expr))
        fun vs es => ∃ ws t, us ++ vs = ws ++ [t] ∧ ReadExprs ws es ∧ t.kind = .symbol s :=
    fun _ => passesFrom_symbol_bind fun t ht _ => passesFrom_pure ⟨us, t, rfl, h, ht⟩
  intro ts
  refine passesFrom_kind?_bind ?_
  split
  · dsimp only
    split
    · exact hend readExprs_nil ts
    · refine hexpr.bind fun us e he ts => ?_
      refine (passes_moreItems hexpr n [e] us he.singleton).bind fun vs es hes => ?_
      simpa using hend hes
  · exact hend readExprs_nil ts

theorem passes_chain (level : List BinOp) : ∀ (n : Nat) (left : Expr) (us : List Token),
    ReadExpr us left → Passes (chain level expr n left) fun vs e => ReadExpr (us ++ vs) e := by
  intro n
  induction n with
  | zero => exact fun _ _ _ _ => passesFrom_throw _
  | succ n ih =>
    intro left us hleft ts
    have hstop : PassesFrom ts (pure left) fun vs e => ReadExpr (us ++ vs) e :=
      passesFrom_pure (by simpa using hleft)
    rw [chain]
    refine passesFrom_current?_bind ?_
    cases ts with
    | nil => exact hstop
    | cons t ts =>
      dsimp only [List.head?_cons, Option.bind_some]
      split
      · next op hop =>
        have ht : t.kind = .symbol op.symbol :=
          of_decide_eq_true (List.find?_some (p := fun o : BinOp => t.kind = .symbol o.symbol) hop)
        refine passesFrom_advance_bind (hexpr.bind fun vs right hright => ?_)
        simpa using ih (.binary op left right) (us ++ t :: vs) (hleft.binary ht hright)
      · exact hstop

theorem passes_binary (n : Nat) (levels : List (List BinOp)) :
    Passes (binary n expr levels) ReadExpr := by
  induction levels with
  | nil => exact hexpr
  | cons level tighter ih =>
    exact fun _ => ih.bind fun us left hleft => passes_chain ih level n left us hleft

theorem passes_signed (n : Nat) : Passes (signed expr n) ReadExpr := by
  induction n with
  | zero => exact fun _ => passesFrom_throw _
  | succ n ih =>
    intro ts
    rw [signed]
    refine passesFrom_kind?_bind ?_
    cases ts with
    | nil => exact hexpr []
    | cons t ts =>
      dsimp only [List.head?_cons, Option.map_some, Option.bind_some]
      split
      · next node hnode =>
        refine passesFrom_advance_bind (ih.bind fun us e he _ => passesFrom_pure ?_)
        simpa using he.sign hnode
      · exact hexpr (t :: ts)

theorem passes_indexed : ∀ (n : Nat) (base : Expr) (us : List Token), ReadExpr us base →
    Passes (indexed expr n base) fun vs e => ReadExpr (us ++ vs) e := by
  intro n
  induction n with
  | zero => exact fun _ _ _ _ => passesFrom_throw _
  | succ n ih =>
    intro base us hbase ts
    rw [indexed]
    refine passesFrom_accept_bind (fun l hl ts => ?_) (passesFrom_pure (by simpa using hbase))
    rw [if_pos rfl]
    refine hexpr.bind fun vs i hi ts => passesFrom_symbol_bind fun r hr ts => ?_
    split
    · simpa using ih _ _ (hbase.index_name hl hi hr) ts
    · simpa using ih _ _ (hbase.index_index hl hi hr) ts
    · exact passesFrom_current?_bind (passesFrom_throw _)

theorem passes_primary (n : Nat) : Passes (primary n expr) ReadExpr := by
  intro ts
  refine passesFrom_current?_bind ?_
  cases ts with
  | nil => exact passesFrom_throw _
  | cons t ts =>
    dsimp only [List.head?_cons]
    split
    · next ht =>
      refine passesFrom_advance_bind ?_
      split
      · next m hm => exact passesFrom_pure (readExpr_literal ht hm)
      · exact passesFrom_throw _
    · next ht =>
      refine passesFrom_advance_bind
        (passesFrom_accept_bind (fun l hl ts => ?_) (passesFrom_pure (readExpr_name ht)))
      rw [if_pos rfl]
      refine (passes_itemsUntil hexpr n .rightParen).bind ?_
      rintro _ args ⟨us, r, rfl, hargs, hr⟩ ts
      exact passesFrom_pure (by simpa using hargs.call ht hl hr)
    · next ht =>
      refine passesFrom_advance_bind
        (hexpr.bind fun us e he ts => passesFrom_symbol_bind fun r hr ts => ?_)
      exact passesFrom_pure (by simpa using he.parens ht hr)
    · exact passesFrom_throw _

end Inner

theorem passes_exprAt (n : Nat) : Passes (exprAt n) ReadExpr := by
  induction n with
  | zero => exact fun _ => passesFrom_throw _
  | succ n ih =>
    refine passes_binary (passes_signed ?_ _) _ _
    exact fun _ => (passes_primary ih (n + 1)).bind fun us base hbase =>
      passes_indexed ih (n + 1) base us hbase

/-! ### Declarations -/

theorem passes_initial (f : Nat) :
    Passes (initial f) fun us init => ∀ σ : Trail, σ.Kept us (Expr.operandsOf? init) := by
  intro ts
  refine passesFrom_accept_bind (fun t ht ts => ?_) (passesFrom_pure kept_nil)
  rw [if_pos rfl]
  refine (passes_exprAt f).bind fun us e he ts => passesFrom_pure fun σ => ?_
  simpa using (he.kept _ rfl).symbol ht rfl

theorem passes_registerOf (x : String) (line : Nat) :
    Passes (registerOf x line) fun us _ => us = [] := by
  intro ts
  unfold registerOf
  split
  · split
    · split
      · exact passesFrom_pure rfl
      · exact passesFrom_throw _
    · exact passesFrom_throw _
  · exact passesFrom_throw _

theorem passes_varDecl (f : Nat) (name : Token) (type : IntType) (register volatile : Bool) :
    Passes (varDecl f name type register volatile) fun us d => d.name = name.text ∧
    Holds us (Expr.operandsOf? d.init) := by
  have hrest (number : Option (Fin 32)) :
      Passes (initial f >>= fun init => symbol .semicolon >>= fun _ =>
        pure { name := name.text, init, type, register := number, volatile } : Parse VarDecl)
          fun us d => d.name = name.text ∧ Holds us (Expr.operandsOf? d.init) := by
    intro ts
    refine (passes_initial f).bind fun us init hinit ts => passesFrom_symbol_bind fun t ht ts =>
      passesFrom_pure ⟨rfl, ?_⟩
    simpa using (holds_semicolon ht).behind hinit
  intro ts
  unfold varDecl
  dsimp only
  split
  · have hnumber : Passes (some <$> registerOf name.text name.line) fun us _ => us = [] :=
      (passes_registerOf name.text name.line).map some fun _ _ h => h
    refine hnumber.bind ?_
    rintro _ number rfl
    exact hrest number
  · exact hrest none ts

theorem passes_pointerDecl (f : Nat) (x : String) (register volatile : Bool) :
    Passes (pointerDecl f x register volatile) fun us d => d.name = x ∧
    Holds us (Expr.operandsOf? d.init) := by
  intro ts
  refine (passes_initial f).bind fun us init hinit ts => passesFrom_symbol_bind fun t ht ts =>
    passesFrom_pure ⟨rfl, ?_⟩
  simpa using (holds_semicolon ht).behind hinit

/-- A declared array from behind the opening bracket on. -/
theorem passes_arrayDecl (f : Nat) (x : String) (register volatile : Bool) :
    Passes (arrayDecl f x register volatile)
      fun us d => d.name = x ∧ Keeps us (d.size.operands ++ Expr.allOperands (d.init.getD [])) := by
  intro ts
  refine (passes_exprAt f).bind fun us size hsize ts => passesFrom_symbol_bind fun r hr ts => ?_
  have hend {vs : List Token} {init : Option (List Expr)}
      (hinit : Keeps vs (Expr.allOperands (init.getD []))) :
      Passes (symbol .semicolon >>= fun _ =>
      pure { name := x, size, init, register, volatile } : Parse ArrayDecl)
        fun ws d => d.name = x ∧
        Keeps (us ++ r :: (vs ++ ws)) (d.size.operands ++ Expr.allOperands (d.init.getD [])) := by
    intro ts
    refine passesFrom_symbol_bind fun t ht ts => passesFrom_pure ⟨rfl, ?_⟩
    simpa using ((hinit.append (holds_semicolon ht).keeps).symbol hr (by decide)).keepsBehind
      hsize.kept
  have hbare : Keeps [] (Expr.allOperands ((none : Option (List Expr)).getD [])) := keeps_nil
  refine passesFrom_accept_bind (fun t ht ts => ?_) (hend hbare ts)
  rw [if_pos rfl]
  refine passesFrom_symbol_bind fun l hl ts => ?_
  have hitems : Passes (some <$> itemsUntil f (exprAt f) .rightBrace)
      fun vs init => Keeps vs (Expr.allOperands (init.getD [])) := by
    refine (passes_itemsUntil (passes_exprAt f) f .rightBrace).map some ?_
    rintro _ es ⟨vs, u, rfl, hes, hu⟩
    simpa using (keeps_nil.symbol hu (by decide)).keepsBehind hes.kept
  refine hitems.bind fun vs init hinit ts => ?_
  simpa using hend ((hinit.symbol hl (by decide)).keeps.symbol ht (by decide)).keeps ts

theorem passes_qualifiers : ∀ (n : Nat) (register volatile : Bool),
    Passes (qualifiers n register volatile) fun us _ => ∀ t ∈ us, ∃ w, t.kind = .keyword w := by
  intro n
  induction n with
  | zero => exact fun _ _ _ => passesFrom_throw _
  | succ n ih =>
    intro register volatile ts
    have hmore {t : Token} {w : Keyword} (ht : t.kind = .keyword w) (register volatile : Bool) :
        Passes (qualifiers n register volatile) fun us _ =>
        ∀ u ∈ t :: us, ∃ w, u.kind = .keyword w :=
      (ih register volatile).mono fun us _ hus => List.forall_mem_cons.mpr ⟨⟨w, ht⟩, hus⟩
    have hstop : Passes (pure (register, volatile) : Parse (Bool × Bool))
        fun us _ => ∀ t ∈ us, ∃ w, t.kind = .keyword w :=
      fun _ => passesFrom_pure (List.forall_mem_nil _)
    rw [qualifiers]
    refine passesFrom_kind?_bind ?_
    cases ts with
    | nil => exact hstop []
    | cons t ts =>
      dsimp only [List.head?_cons, Option.map_some]
      split
      · next ht => exact passesFrom_advance_bind (hmore (Option.some.inj ht) true volatile ts)
      · next ht => exact passesFrom_advance_bind (hmore (Option.some.inj ht) register true ts)
      · exact hstop (t :: ts)

theorem passes_declaredType :
    Passes declaredType fun us _ => ∀ t ∈ us, ∃ w, t.kind = .keyword w := by
  intro ts
  refine passesFrom_current?_bind ?_
  cases ts with
  | nil => exact passesFrom_throw _
  | cons t ts =>
    dsimp only [List.head?_cons]
    split
    · next ht =>
        exact passesFrom_advance_bind (passesFrom_pure (List.forall_mem_singleton.mpr ⟨_, ht⟩))
    · next ht =>
        exact passesFrom_advance_bind (passesFrom_pure (List.forall_mem_singleton.mpr ⟨_, ht⟩))
    · exact passesFrom_throw _

theorem passes_declAt (f : Nat) : Passes (declAt f) fun us d => Holds us d.operands := by
  intro ts
  refine (passes_qualifiers f false false).bind fun us words hus ts => ?_
  refine passes_declaredType.bind fun vs type hvs ts => ?_
  have hwords {ws : List Token} {os : List SourceOperand} (h : Holds ws os) :
    Holds (us ++ (vs ++ ws)) os := (h.keywords hvs).keywords hus
  -- the rest from the name on
  have hnamed (pointer : Bool) :
      Passes (expect .identifier (some "Expected variable name") >>= fun name =>
      accept (.symbol .leftBracket) >>= fun bracket =>
        if bracket then Decl.array <$> arrayDecl f name.text words.1 words.2
        else if pointer then Decl.pointer <$> pointerDecl f name.text words.1 words.2
        else Decl.var <$> varDecl f name type words.1 words.2) fun us d => Holds us d.operands := by
    intro ts
    refine passesFrom_expect_bind fun t ht ts => passesFrom_accept_bind (fun l hl ts => ?_) ?_
    · rw [if_pos rfl]
      refine (passes_arrayDecl f t.text words.1 words.2).map Decl.array ?_ ts
      rintro ws d ⟨hname, hd⟩
      rw [Decl.operands, hname]
      exact hd.bracket ht hl
    · rw [if_neg Bool.false_ne_true]
      split
      · refine (passes_pointerDecl f t.text words.1 words.2).map Decl.pointer ?_ ts
        rintro ws d ⟨hname, hd⟩
        rw [Decl.operands, hname]
        exact hd.name ht
      · refine (passes_varDecl f t type words.1 words.2).map Decl.var ?_ ts
        rintro ws d ⟨hname, hd⟩
        rw [Decl.operands, VarDecl.operands, hname]
        exact hd.name ht
  refine passesFrom_accept_bind (fun t ht => ?_) ?_
  · exact (hnamed true).mono fun ws d hd => hwords (hd.keeps.symbol ht (by decide))
  · exact (hnamed false).mono (fun ws d hd => hwords hd) ts

/-! ### Simple statements -/

theorem passes_assigned (f : Nat) : Passes (assigned f) fun us e => Holds us e.operands := by
  intro ts
  refine passesFrom_symbol_bind fun t ht ts => (passes_exprAt f).bind fun us e he ts => ?_
  refine passesFrom_symbol_bind fun u hu ts => passesFrom_pure ?_
  simpa using ((holds_semicolon hu).keepsBehind he.kept).symbol ht (by decide)

theorem passes_assignmentAt (f : Nat) :
    Passes (assignmentAt f) fun us s => Keeps us s.operands := by
  intro ts
  refine passesFrom_current?_bind ?_
  cases ts with
  | nil => exact passesFrom_throw _
  | cons t ts =>
    dsimp only [List.head?_cons]
    split
    · next ht =>
      refine passesFrom_advance_bind ((passes_exprAt f).bind fun us p hp ts => ?_)
      refine (passes_assigned f).bind fun vs e he ts => passesFrom_pure ?_
      rw [Stmt.operands]
      simpa using ((he.keepsBehind hp.kept).symbol ht (by decide)).keeps
    · next ht =>
      refine passesFrom_advance_bind (passesFrom_accept_bind (fun l hl ts => ?_) ?_)
      · rw [if_pos rfl]
        refine (passes_exprAt f).bind fun us i hi ts => passesFrom_symbol_bind fun r hr ts => ?_
        refine (passes_assigned f).bind fun vs e he ts => passesFrom_pure ?_
        rw [Stmt.operands]
        simpa using (((he.keeps.symbol hr (by decide)).keepsBehind hi.kept).bracket ht hl).keeps
      · rw [if_neg Bool.false_ne_true]
        refine (passes_assigned f).bind fun us e he ts => passesFrom_pure ?_
        rw [Stmt.operands]
        simpa using (he.name ht).keeps
    · exact passesFrom_throw _

/-- A name with a sign behind it. -/
theorem holds_stepped {u v : Token} {s : Symbol} (ht : t.kind = .identifier)
    (hu : u.kind = .symbol s) (hs : s.IsPlain) (hv : v.kind = .symbol .semicolon) :
    Holds [t, u, v] [.name t.text] :=
  ((holds_semicolon hv).keeps.symbol hu hs).name ht

theorem passes_namedStatement (f : Nat) (ht : t.kind = .identifier) (ts : List Token) :
    PassesFrom (t :: ts) (namedStatement f t) fun us s => Keeps us s.operands := by
  refine passesFrom_next?_bind ?_
  cases ts with
  | nil => exact passesFrom_throw _
  | cons u ts =>
    simp only [List.getElem?_cons_succ, List.getElem?_cons_zero, Option.map_some]
    split
    · refine (passes_exprAt f).bind fun us e he ts => passesFrom_symbol_bind fun v hv ts =>
        passesFrom_pure ?_
      rw [Stmt.operands]
      simpa using (holds_semicolon hv).keepsBehind he.kept
    · exact passes_assignmentAt f _
    · exact passes_assignmentAt f _
    · next hu =>
      refine passesFrom_advance_bind
        (passesFrom_advance_bind (passesFrom_symbol_bind fun v hv ts => passesFrom_pure ?_))
      rw [Stmt.operands]
      exact (holds_stepped ht (Option.some.inj hu) (by decide) hv).keeps
    · next hu =>
      refine passesFrom_advance_bind
        (passesFrom_advance_bind (passesFrom_symbol_bind fun v hv ts => passesFrom_pure ?_))
      rw [Stmt.operands]
      exact (holds_stepped ht (Option.some.inj hu) (by decide) hv).keeps
    · exact passesFrom_throw _

theorem passes_returnStatement (f : Nat) (ht : t.kind = .keyword w) (ts : List Token) :
    PassesFrom (t :: ts) (returnStatement f) fun us s => Keeps us s.operands := by
  have hend {us : List Token} {e : Option Expr}
      (he : ∀ σ : Trail, σ.bare = false → σ.Kept us (Expr.operandsOf? e)) :
      Passes (symbol .semicolon >>= fun _ => pure (Stmt.ret e)) fun vs s =>
      Keeps (t :: (us ++ vs)) s.operands := by
    intro ts
    refine passesFrom_symbol_bind fun u hu ts => passesFrom_pure ?_
    rw [Stmt.operands]
    simpa using (((holds_semicolon hu).keepsBehind he).keyword ht).keeps
  refine passesFrom_advance_bind (passesFrom_kind?_bind ?_)
  dsimp only
  split
  · split
    · exact hend (e := none) (fun σ _ => kept_nil σ) ts
    · refine ((passes_exprAt f).map some fun us e he => ?_).bind fun us e he => hend he
      exact he.kept
  · exact hend (e := none) (fun σ _ => kept_nil σ) ts

theorem passes_asmStatement (ht : t.kind = .keyword w) (ts : List Token) :
    PassesFrom (t :: ts) asmStatement fun us s => Keeps us s.operands := by
  refine passesFrom_advance_bind
    (passesFrom_expect_bind fun u hu ts => passesFrom_symbol_bind fun v hv ts => passesFrom_pure ?_)
  rw [Stmt.operands]
  exact (((holds_semicolon hv).asmBlock hu).keeps.keyword ht).keeps

/-! ### Loops and branches -/

theorem passes_condition (f : Nat) : Passes (condition f) fun us e => Keeps us e.operands := by
  intro ts
  refine passesFrom_symbol_bind fun l hl ts => (passes_exprAt f).bind fun us e he ts => ?_
  refine passesFrom_symbol_bind fun r hr ts => passesFrom_pure fun σ hσ =>
    ⟨(he.parens hl hr).kept σ hσ, ?_⟩
  rw [after_cons, after_append, after_cons, hr]
  rfl

theorem passes_forVariable (f : Nat) (type : IntType) (ht : t.kind = .keyword w) (ts : List Token) :
    PassesFrom (t :: ts) (forVariable f type)
    fun us init => ∀ σ : Trail, σ.Kept us init.operands := by
  refine passesFrom_advance_bind (passesFrom_identifier_bind fun u hu ts => ?_)
  refine (passes_initial f).bind fun us init hinit ts => passesFrom_pure fun σ => ?_
  simpa [ForInit.operands, VarDecl.operands] using ((hinit _).name hu).keyword ht

theorem passes_forInit (f : Nat) : Passes (forInit f)
    fun us init => ∀ σ : Trail, σ.Kept us ((init.map ForInit.operands).getD []) := by
  intro ts
  refine passesFrom_current?_bind ?_
  cases ts with
  | nil => exact passesFrom_pure kept_nil
  | cons t ts =>
    dsimp only [List.head?_cons]
    split
    · next ht =>
        exact (passes_forVariable f .uint32 ht ts).bind fun us init hinit ts =>
          passesFrom_pure (by simpa using hinit)
    · next ht =>
        exact (passes_forVariable f .int32 ht ts).bind fun us init hinit ts =>
          passesFrom_pure (by simpa using hinit)
    · next ht =>
      refine passesFrom_next?_bind ?_
      split
      · next hassign =>
        cases ts with
        | nil => cases hassign
        | cons u ts =>
          refine passesFrom_advance_bind (passesFrom_advance_bind ?_)
          refine (passes_exprAt f).bind fun us e he ts => passesFrom_pure fun σ => ?_
          have hu : u.kind = .symbol .assign := Option.some.inj hassign
          simpa [ForInit.operands] using ((he.kept _ rfl).symbol hu rfl).name ht
      · exact passesFrom_pure kept_nil
    · exact passesFrom_pure kept_nil

theorem passes_forCondition (f : Nat) : Passes (forCondition f)
    fun us c => ∀ σ : Trail, σ.bare = false → σ.Kept us (Expr.operandsOf? c) := by
  intro ts
  refine passesFrom_kind?_bind ?_
  split
  · exact passesFrom_pure fun σ _ => kept_nil σ
  · split
    · exact passesFrom_pure fun σ _ => kept_nil σ
    · exact (passes_exprAt f).map some (fun us e he => he.kept) ts

/-! The closing parenthesis of a loop head shows whether a name that stands in front of it was left
out, so it belongs to the step. -/

section Step

variable {t u r : Token} {σ : Trail} {s : Symbol} (hr : r.kind = .symbol .rightParen)
include hr

theorem kept_noStep (hσ : σ.bare = false) : σ.Kept [r] [] :=
  (kept_nil _).symbol hr (by rw [loses_rightParen, hσ])

theorem kept_signedStep (ht : t.kind = .symbol s) (hs : s.IsPlain) (hne : s ≠ .semicolon)
    (hu : u.kind = .identifier) : σ.Kept [t, u, r] [.name u.text] := by
  have hcalm : ((σ.next (.symbol s)).next .identifier).bare = false := by
    rw [next, (calm_symbol hne σ).1]
    rfl
  exact ((kept_noStep hr hcalm).name hu).symbol ht (loses_plain hs σ)

theorem kept_stepSigned (ht : t.kind = .identifier) (hu : u.kind = .symbol s) (hs : s.IsPlain) :
    σ.Kept [t, u, r] [.name t.text] :=
  ((kept_noStep hr rfl).symbol hu (loses_plain hs _)).name ht

/-- A name with nothing done to it is behind a semicolon, and it is left out. -/
theorem kept_bareStep (ht : t.kind = .identifier) (hσ : σ.ended = true) : σ.Kept [t, r] [] := by
  have hlossy : σ.lossy [t, r] = true := by simp [lossy, loses, next, ht, hr, hσ]
  refine kept_of_lossy (List.nil_sublist _) ?_ hlossy
  simp [operandsOf, Token.operand?, ht, hr]

end Step

theorem passes_forStep (f : Nat) :
    Passes (forStep f) fun us step => ∀ (r : Token) (σ : Trail), r.kind = .symbol .rightParen →
    σ.ended = true → σ.bare = false → σ.Kept (us ++ [r]) ((step.map ForStep.operands).getD []) := by
  intro ts
  refine passesFrom_current?_bind ?_
  cases ts with
  | nil => exact passesFrom_pure fun r σ hr _ hbare => kept_noStep hr hbare
  | cons t ts =>
    dsimp only [List.head?_cons]
    split
    · next ht =>
      refine passesFrom_advance_bind
        (passesFrom_identifier_bind fun u hu ts => passesFrom_pure fun r σ hr _ _ => ?_)
      exact kept_signedStep hr ht (by decide) (by decide) hu
    · next ht =>
      refine passesFrom_advance_bind
        (passesFrom_identifier_bind fun u hu ts => passesFrom_pure fun r σ hr _ _ => ?_)
      exact kept_signedStep hr ht (by decide) (by decide) hu
    · next ht =>
      refine passesFrom_advance_bind (passesFrom_accept_bind (fun u hu ts => ?_) ?_)
      · exact passesFrom_pure fun r σ hr _ _ => kept_stepSigned hr ht hu (by decide)
      rw [if_neg Bool.false_ne_true]
      refine passesFrom_accept_bind (fun u hu ts => ?_) ?_
      · exact passesFrom_pure fun r σ hr _ _ => kept_stepSigned hr ht hu (by decide)
      rw [if_neg Bool.false_ne_true]
      refine passesFrom_accept_bind (fun u hu ts => ?_) ?_
      · rw [if_pos rfl]
        refine (passes_exprAt f).bind fun us e he ts => passesFrom_pure fun r σ hr _ _ => ?_
        have hcalm := he.calm ((σ.next .identifier).next (.symbol .assign)) rfl
        have hclosed := (he.kept _ rfl).close hr (by rw [loses_rightParen, hcalm.2])
        simpa [ForStep.operands] using (hclosed.symbol hu rfl).name ht
      · exact passesFrom_pure fun r σ hr hended _ => kept_bareStep hr ht hended
    · exact passesFrom_pure fun r σ hr _ hbare => kept_noStep hr hbare

section Nested

variable {stmt : Parse Stmt} (hstmt : Passes stmt fun us s => Keeps us s.operands) (f : Nat)
  {t : Token} {w : Keyword}
  (ht : t.kind = .keyword w)
include hstmt

section Headed

include ht

theorem passes_ifStatement (ts : List Token) :
    PassesFrom (t :: ts) (ifStatement f stmt) fun us s => Keeps us s.operands := by
  refine passesFrom_advance_bind ((passes_condition f).bind fun us c hc ts => ?_)
  refine hstmt.bind fun vs body hbody ts => passesFrom_accept_bind (fun u hu ts => ?_) ?_
  · rw [if_pos rfl]
    refine hstmt.bind fun ws other hother ts => passesFrom_pure ?_
    rw [Stmt.operands]
    simpa using ((hc.append (hbody.append (hother.keyword hu).keeps)).keyword ht).keeps
  · refine passesFrom_pure ?_
    rw [Stmt.operands]
    simpa using ((hc.append hbody).keyword ht).keeps

theorem passes_whileStatement (ts : List Token) :
    PassesFrom (t :: ts) (whileStatement f stmt) fun us s => Keeps us s.operands := by
  refine passesFrom_advance_bind ((passes_condition f).bind fun us c hc ts => hstmt.bind
    fun vs body hbody ts => passesFrom_pure ?_)
  rw [Stmt.operands]
  simpa using ((hc.append hbody).keyword ht).keeps

theorem passes_doStatement (ts : List Token) :
    PassesFrom (t :: ts) (doStatement f stmt) fun us s => Keeps us s.operands := by
  refine passesFrom_advance_bind
    (hstmt.bind fun us body hbody ts => passesFrom_keyword_bind fun u hu ts => ?_)
  refine (passes_condition f).bind fun vs c hc ts => passesFrom_symbol_bind fun v hv ts =>
    passesFrom_pure ?_
  rw [Stmt.operands]
  simpa using ((hbody.append ((hc.append (holds_semicolon hv).keeps).keyword hu).keeps).keyword
    ht).keeps

theorem passes_forStatement (ts : List Token) :
    PassesFrom (t :: ts) (forStatement f stmt) fun us s => Keeps us s.operands := by
  refine passesFrom_advance_bind
    (passesFrom_symbol_bind fun l hl ts => (passes_forInit f).bind fun us init hinit ts => ?_)
  refine passesFrom_symbol_bind fun u hu ts => (passes_forCondition f).bind fun vs c hc ts => ?_
  refine passesFrom_symbol_bind fun v hv ts => (passes_forStep f).bind fun ws step hstep ts => ?_
  refine passesFrom_symbol_bind fun r hr ts => hstmt.bind fun xs body hbody ts => passesFrom_pure ?_
  have hrest :
      Holds (v :: (ws ++ [r] ++ xs)) ((step.map ForStep.operands).getD [] ++ body.operands) := by
    intro σ
    have hstep := hstep r (σ.next (.symbol .semicolon)) hr rfl rfl
    obtain ⟨hkept, hbare⟩ := hbody ((σ.next (.symbol .semicolon)).after
      (ws ++ [r])) (by rw [after_append, after_cons, hr]; rfl)
    exact ⟨(hstep.append hkept).symbol hv rfl, by rwa [after_cons, hv, after_append]⟩
  rw [Stmt.operands]
  have hhead := ((hrest.keepsBehind hc).symbol hu (by decide)).behind hinit
  simpa using ((hhead.keeps.symbol hl (by decide)).keeps.keyword ht).keeps

end Headed

/-! ### Blocks and statements -/

theorem passes_statements :
    ∀ (n : Nat) (done : List Stmt) (us : List Token), Keeps us (Stmt.allOperands done.reverse) →
    Passes (statements stmt n done) fun vs ss => Keeps (us ++ vs) (Stmt.allOperands ss) := by
  intro n
  induction n with
  | zero => exact fun _ _ _ _ => passesFrom_throw _
  | succ n ih =>
    intro done us hdone ts
    have hstop :
        PassesFrom ts (pure done.reverse) fun vs ss => Keeps (us ++ vs) (Stmt.allOperands ss) :=
      passesFrom_pure (by simpa using hdone)
    rw [statements]
    refine passesFrom_kind?_bind ?_
    split
    · exact hstop
    · split
      · exact hstop
      · refine hstmt.bind fun vs s hs => ?_
        have hmore : Keeps (us ++ vs) (Stmt.allOperands (s :: done).reverse) := by
          rw [List.reverse_cons, Stmt.allOperands_append]
          simpa [Stmt.allOperands] using hdone.append hs
        simpa using ih (s :: done) (us ++ vs) hmore

theorem passes_blockWith :
    Passes (blockWith f stmt) fun us ss => Keeps us (Stmt.allOperands ss) := by
  intro ts
  refine passesFrom_symbol_bind fun l hl ts =>
    (passes_statements hstmt f [] [] keeps_nil).bind fun us ss hss ts => ?_
  refine passesFrom_symbol_bind fun r hr ts => passesFrom_pure ?_
  simpa using ((hss.append (keeps_nil.symbol hr (by decide)).keeps).symbol hl (by decide)).keeps

theorem passes_stmtWith : Passes (stmtWith f stmt) fun us s => Keeps us s.operands := by
  have hdecl : Passes (Stmt.decl <$> declAt f) fun us s => Keeps us s.operands := by
    refine (passes_declAt f).map Stmt.decl fun us d hd => ?_
    rw [Stmt.operands]
    exact hd.keeps
  have hsigned {t : Token} {s : Symbol} (ht : t.kind = .symbol s) (hs : s.IsPlain) {u v : Token}
      (hu : u.kind = .identifier)
      (hv : v.kind = .symbol .semicolon) : Keeps [t, u, v] [.name u.text] :=
    (((holds_semicolon hv).name hu).keeps.symbol ht hs).keeps
  have hword {t u : Token} {w : Keyword} (ht : t.kind = .keyword w)
      (hu : u.kind = .symbol .semicolon) : Keeps [t, u] [] :=
    ((holds_semicolon hu).keeps.keyword ht).keeps
  intro ts
  refine passesFrom_current?_bind ?_
  cases ts with
  | nil => exact passesFrom_throw _
  | cons t ts =>
    dsimp only [List.head?_cons]
    -- One case for each kind of first token, in the order of the reader.
    split
    · exact hdecl (t :: ts)
    · exact hdecl (t :: ts)
    · exact hdecl (t :: ts)
    · exact hdecl (t :: ts)
    · next ht =>
      refine passesFrom_advance_bind (passesFrom_identifier_bind fun u hu ts =>
        passesFrom_symbol_bind fun v hv ts => passesFrom_pure ?_)
      rw [Stmt.operands]
      exact hsigned ht (by decide) hu hv
    · next ht =>
      refine passesFrom_advance_bind (passesFrom_identifier_bind fun u hu ts =>
        passesFrom_symbol_bind fun v hv ts => passesFrom_pure ?_)
      rw [Stmt.operands]
      exact hsigned ht (by decide) hu hv
    · next ht => exact passes_returnStatement f ht ts
    · next ht => exact passes_ifStatement hstmt f ht ts
    · next ht => exact passes_doStatement hstmt f ht ts
    · next ht => exact passes_whileStatement hstmt f ht ts
    · next ht => exact passes_forStatement hstmt f ht ts
    · next ht =>
      refine passesFrom_advance_bind (passesFrom_symbol_bind fun u hu ts => passesFrom_pure ?_)
      rw [Stmt.operands]
      exact hword ht hu
    · next ht =>
      refine passesFrom_advance_bind (passesFrom_symbol_bind fun u hu ts => passesFrom_pure ?_)
      rw [Stmt.operands]
      exact hword ht hu
    · next ht => exact passes_asmStatement ht ts
    · refine (passes_blockWith hstmt f).map Stmt.block (fun us ss hss => ?_) (t :: ts)
      rw [Stmt.operands]
      exact hss
    · next ht => exact passes_namedStatement f ht ts
    · refine passesFrom_next?_bind ?_
      split
      · exact passes_assignmentAt f (t :: ts)
      · exact passesFrom_throw _
    · exact passesFrom_throw _

end Nested

theorem passes_stmtAt (f : Nat) : Passes (stmtAt f) fun us s => Keeps us s.operands := by
  induction f with
  | zero => exact fun _ => passesFrom_throw _
  | succ f ih => exact passes_stmtWith ih (f + 1)

theorem passes_stmt : Passes stmt fun us s => Keeps us s.operands := by
  intro ts passed s c h
  rw [stmt, bind_ok (bound_apply _)] at h
  exact passes_stmtAt _ ts passed s c h

/-- A statement that is read has operands of the tokens that were passed, in their order and none of
them twice. It has all of them if and only if no index stands behind an index and no head of a loop
ends in a name with nothing done to it. -/
theorem statement_operands_iff {ts : List Token} {s : Stmt} {c : Cursor}
    (h : stmt.runOn ts = (.ok s, c)) :
    ts = c.passed.reverse ++ c.ahead ∧ s.operands.Sublist (operandsOf c.passed.reverse) ∧
      (s.operands = operandsOf c.passed.reverse ↔ ¬ Forgets (c.passed.reverse.map Token.kind)) := by
  obtain ⟨us, hts, hpassed, hkeeps⟩ := passes_stmt ts [] s c h
  have hus : c.passed.reverse = us := by rw [hpassed, List.append_nil, List.reverse_reverse]
  obtain ⟨⟨hsub, hiff⟩, -⟩ := hkeeps {} rfl
  rw [hus]
  refine ⟨hts, hsub, ?_⟩
  rw [hiff, ← lossy_iff, Bool.not_eq_true]

/-- A token of a given text, wherever it stands. -/
def tokenOf (k : Kind) (text : String) : Token := ⟨k, text, ⟨1, 1⟩⟩

def nameToken (x : String) : Token := tokenOf .identifier x

def symbolToken (s : Symbol) : Token := tokenOf (.symbol s) s.text

/-- The tokens of `for (; a[1]; i++) x = (b)[i];`. -/
def walkTokens : List Token :=
  [tokenOf (.keyword .forKw) "for", symbolToken .leftParen, symbolToken .semicolon, nameToken "a",
    symbolToken .leftBracket, tokenOf .literal "1", symbolToken .rightBracket, symbolToken
    .semicolon, nameToken "i", symbolToken .plusPlus, symbolToken .rightParen, nameToken "x",
    symbolToken .assign, symbolToken .leftParen, nameToken "b", symbolToken .rightParen,
    symbolToken .leftBracket, nameToken "i", symbolToken .rightBracket, symbolToken .semicolon]

/-- The tree of these tokens. -/
def walk : Stmt :=
  .forLoop none (some (.index "a" (.literal 1))) (some (.increment "i" false))
    (.assign "x" (.index "b" (.name "i")))

theorem walk_operands : stmt.runOn walkTokens = (.ok walk, ⟨walkTokens.reverse, []⟩) ∧
    walk.operands = operandsOf walkTokens := by
  have hread : stmt.runOn walkTokens = (.ok walk, ⟨walkTokens.reverse, []⟩) := by
    refine Prod.ext ?_ ?_
    all_goals rfl
  obtain ⟨-, -, hiff⟩ := statement_operands_iff hread
  have hforgets : ¬ Forgets (walkTokens.map Token.kind) := by
    rw [← lossy_iff]
    decide
  exact ⟨hread, hiff.mpr hforgets⟩

/-- The tokens of `x = a[1][2];`. -/
def twiceIndexed : List Token :=
  [nameToken "x", symbolToken .assign, nameToken "a", symbolToken .leftBracket,
    tokenOf .literal "1", symbolToken .rightBracket, symbolToken .leftBracket, tokenOf .literal "2",
    symbolToken .rightBracket, symbolToken .semicolon]

/-- The tokens of `for (;; i) x = 1;`. -/
def bareStep : List Token :=
  [tokenOf (.keyword .forKw) "for", symbolToken .leftParen, symbolToken .semicolon,
    symbolToken .semicolon, nameToken "i", symbolToken .rightParen, nameToken "x",
    symbolToken .assign, tokenOf .literal "1", symbolToken .semicolon]

theorem operands_left_out :
    (stmt.runOn twiceIndexed).1 = .ok (.assign "x" (.index "a" (.literal 2))) ∧
      operandsOf twiceIndexed = [.name "x", .name "a", .number (some 1), .number (some 2)] ∧
      (stmt.runOn bareStep).1 = .ok (.forLoop none none none (.assign "x" (.literal 1))) ∧
      operandsOf bareStep = [.name "i", .name "x", .number (some 1)] := by
  refine ⟨?_, ?_, ?_, ?_⟩
  all_goals rfl

end WordC.Parse
