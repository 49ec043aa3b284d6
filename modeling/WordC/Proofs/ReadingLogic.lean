import WordC.Proofs.Reading
import WordC.Stmt.Parse

/-!
# Reading lexemes step by step

A reader takes a list of lexemes if on tokens of these lexemes it gives a value and stops behind
them, provided that what follows is of a kind it stops at. The laws here say this of the small
readers, and of two readers one after another: the lexemes are those of both, and the first has to
stop at what the second starts with.
-/

namespace WordC.Parse

open Step

variable {α β : Type}

/-- The kind that follows in front of lexemes, `k` being the kind behind them. -/
def following (ls : List Lexeme) (k : Option Kind) : Option Kind := (ls.head?.map Lexeme.kind).or k

@[simp]
theorem following_nil (k : Option Kind) : following [] k = k := rfl

@[simp]
theorem following_cons (l : Lexeme) (ls : List Lexeme) (k : Option Kind) :
    following (l :: ls) k = some l.kind := rfl

theorem head?_append_kind {ts : List Token} {ls : List Lexeme}
    (h : ts.map Token.lexeme = ls) (rest : List Token) :
    (ts ++ rest).head?.map Token.kind = following ls (rest.head?.map Token.kind) := by
  subst h
  cases ts <;> rfl

/-- On tokens of the lexemes `ls` a reader gives `a` and stops behind them, if it stops at what
follows. -/
def Takes (p : Parse α) (ls : List Lexeme) (a : α) (stop : Option Kind → Prop) : Prop :=
  ∀ passed ts rest, ts.map Token.lexeme = ls → stop (rest.head?.map Token.kind) →
    p ⟨passed, ts ++ rest⟩ = (.ok a, ⟨ts.reverse ++ passed, rest⟩)

/-- A reader that stops wherever it has what it needs. -/
def anywhere (_ : Option Kind) : Prop := True

variable {stop stop₁ : Option Kind → Prop} {ls ms : List Lexeme} {l l₁ l₂ : Lexeme} {a : α} {b : β}

theorem Takes.weaken {p : Parse α} (h : p.Takes ls a stop₁) (hstop : ∀ k, stop k → stop₁ k) :
    p.Takes ls a stop :=
  fun passed ts rest hts hrest => h passed ts rest hts (hstop _ hrest)

theorem takes_pure (a : α) : (pure a : Parse α).Takes [] a stop := by
  intro passed ts rest hts _
  obtain rfl := List.map_eq_nil_iff.mp hts
  rfl

/-- Two readers, the first of which stops at what the second starts with. -/
theorem Takes.bind {x : Parse α} {f : α → Parse β} (hx : x.Takes ls a stop₁)
    (hf : (f a).Takes ms b stop) (hstop : ∀ k, stop k → stop₁ (following ms k)) :
    (x >>= f).Takes (ls ++ ms) b stop := by
  intro passed ts rest hts hrest
  obtain ⟨us, vs, rfl, hus, hvs⟩ := List.map_eq_append_iff.mp hts
  have hnext : stop₁ ((vs ++ rest).head?.map Token.kind) := by
    rw [head?_append_kind hvs]
    exact hstop _ hrest
  rw [List.append_assoc, bind_ok (hx passed us (vs ++ rest) hus hnext), hf _ vs rest hvs hrest,
    List.reverse_append, List.append_assoc]

theorem Takes.map {p : Parse α} (g : α → β) (h : p.Takes ls a stop) :
    (g <$> p).Takes ls (g a) stop := by
  have hbind : (p >>= fun a => pure (g a)).Takes (ls ++ []) (g a) stop :=
    h.bind (takes_pure (g a)) fun _ hk => hk
  rwa [List.append_nil] at hbind

/-! ### Steps that pass one token -/

theorem takes_advance_bind {f : Token → Parse β}
    (hf : ∀ t : Token, t.lexeme = l → (f t).Takes ls b stop) :
    (advance >>= f).Takes (l :: ls) b stop := by
  intro passed ts rest hts hrest
  obtain ⟨t, us, rfl, ht, hus⟩ := List.map_eq_cons_iff.mp hts
  rw [List.cons_append, bind_ok (advance_cons t passed _), hf t ht _ us rest hus hrest,
    List.reverse_cons, List.append_assoc]
  rfl

variable {k : Kind} {f : Bool → Parse β}

theorem takes_expect_bind {f : Token → Parse β} {label : Option String} (hl : l.kind = k)
    (hf : ∀ t : Token, t.lexeme = l → (f t).Takes ls b stop) :
    (expect k label >>= f).Takes (l :: ls) b stop := by
  intro passed ts rest hts hrest
  obtain ⟨t, us, rfl, ht, hus⟩ := List.map_eq_cons_iff.mp hts
  have hkind : t.kind = k := (congrArg Lexeme.kind ht).trans hl
  rw [List.cons_append, bind_ok (expect_cons hkind label passed _), hf t ht _ us rest hus hrest,
    List.reverse_cons, List.append_assoc]
  rfl

theorem takes_symbol_bind {s : Symbol} {f : Unit → Parse β} (hf : (f ()).Takes ls b stop) :
    (symbol s >>= f).Takes (Lexeme.symbol s :: ls) b stop := by
  have hsymbol : (symbol s).Takes [Lexeme.symbol s] () anywhere :=
    takes_expect_bind rfl fun _ _ => takes_pure ()
  exact hsymbol.bind hf fun _ _ => trivial

theorem takes_keyword_bind {k : Keyword} {f : Unit → Parse β} (hl : l.kind = .keyword k)
    (hf : (f ()).Takes ls b stop) : (keyword k >>= f).Takes (l :: ls) b stop := by
  have hkeyword : (keyword k).Takes [l] () anywhere := takes_expect_bind hl fun _ _ => takes_pure ()
  exact hkeyword.bind hf fun _ _ => trivial

theorem takes_identifier (x label : String) : (identifier label).Takes [Lexeme.name x] x stop := by
  refine takes_expect_bind rfl fun t ht => ?_
  rw [show t.text = x from congrArg Lexeme.text ht]
  exact takes_pure x

theorem takes_identifier_bind {x label : String} {f : String → Parse β}
    (hf : (f x).Takes ls b stop) : (identifier label >>= f).Takes (Lexeme.name x :: ls) b stop := by
  have hname : (identifier label).Takes [Lexeme.name x] x anywhere := takes_identifier x label
  exact hname.bind hf fun _ _ => trivial

theorem takes_accept_bind (hl : l.kind = k) (hf : (f true).Takes ls b stop) :
    (accept k >>= f).Takes (l :: ls) b stop := by
  intro passed ts rest hts hrest
  obtain ⟨t, us, rfl, ht, hus⟩ := List.map_eq_cons_iff.mp hts
  have hkind : t.kind = k := (congrArg Lexeme.kind ht).trans hl
  rw [List.cons_append, bind_ok (accept_cons hkind passed _), hf _ us rest hus hrest,
    List.reverse_cons, List.append_assoc]
  rfl

/-- A token that may stand there and does not. -/
theorem takes_accept_skip (hne : ∀ j, stop j → following ls j ≠ some k)
    (hf : (f false).Takes ls b stop) : (accept k >>= f).Takes ls b stop := by
  intro passed ts rest hts hrest
  have hnext : ∀ t ∈ (ts ++ rest).head?, t.kind ≠ k := by
    intro t ht hkind
    refine hne _ hrest ?_
    rw [← head?_append_kind hts, ht, Option.map_some, hkind]
  rw [bind_ok (accept_of_ne hnext), hf passed ts rest hts hrest]

/-- A token that may stand there where another stands. -/
theorem takes_accept_other (hl : l.kind ≠ k) (hf : (f false).Takes (l :: ls) b stop) :
    (accept k >>= f).Takes (l :: ls) b stop :=
  takes_accept_skip (fun _ _ h => hl (Option.some.inj h)) hf

/-- A token that says by being there whether something holds. -/
theorem takes_accept_flag (hl : l.kind = k) (flag : Bool) :
    (accept k).Takes (if flag then [l] else []) flag (· ≠ some k) := by
  rw [← bind_pure (accept k)]
  cases flag with
  | false => exact takes_accept_skip (fun _ h => h) (takes_pure false)
  | true => exact takes_accept_bind hl (takes_pure true)

/-! ### Steps that look ahead -/

theorem takes_kind?_bind {f : Option Kind → Parse β}
    (hf : (f (some l.kind)).Takes (l :: ls) b stop) : (kind? >>= f).Takes (l :: ls) b stop := by
  intro passed ts rest hts hrest
  rw [bind_ok (kind?_apply _), head?_append_kind hts, following_cons]
  exact hf passed ts rest hts hrest

theorem takes_kind?_nil {k : Option Kind} {f : Option Kind → Parse β}
    (hf : (f k).Takes [] b (· = k)) : (kind? >>= f).Takes [] b (· = k) := by
  intro passed ts rest hts hrest
  rw [bind_ok (kind?_apply _), head?_append_kind hts, hrest, following_nil]
  exact hf passed ts rest hts hrest

theorem takes_current?_bind {f : Option Token → Parse β}
    (hf : ∀ t : Token, t.lexeme = l → (f (some t)).Takes (l :: ls) b stop) :
    (current? >>= f).Takes (l :: ls) b stop := by
  intro passed ts rest hts hrest
  obtain ⟨t, us, rfl, ht, -⟩ := List.map_eq_cons_iff.mp hts
  rw [bind_ok (current?_apply _)]
  exact hf t ht passed (t :: us) rest hts hrest

theorem takes_current?_nil {f : Option Token → Parse β}
    (hf : ∀ t : Token, t.kind = k → (f (some t)).Takes [] b (· = some k)) :
    (current? >>= f).Takes [] b (· = some k) := by
  intro passed ts rest hts hrest
  obtain rfl := List.map_eq_nil_iff.mp hts
  obtain ⟨t, ht, hkind⟩ := Option.map_eq_some_iff.mp hrest
  rw [bind_ok (current?_apply _)]
  show f rest.head? ⟨passed, [] ++ rest⟩ = _
  rw [ht]
  exact hf t hkind passed [] rest hts hrest

theorem takes_next?_bind {f : Option Token → Parse β}
    (hf : ∀ t : Token, t.lexeme = l₂ → (f (some t)).Takes (l₁ :: l₂ :: ls) b stop) :
    (next? >>= f).Takes (l₁ :: l₂ :: ls) b stop := by
  intro passed ts rest hts hrest
  obtain ⟨t, us, rfl, -, hus⟩ := List.map_eq_cons_iff.mp hts
  obtain ⟨u, vs, rfl, hu, -⟩ := List.map_eq_cons_iff.mp hus
  have hnext : next? ⟨passed, t :: u :: vs ++ rest⟩ =
    (.ok (some u), ⟨passed, t :: u :: vs ++ rest⟩) := rfl
  rw [bind_ok hnext]
  exact hf u hu passed (t :: u :: vs) rest hts hrest

end WordC.Parse
