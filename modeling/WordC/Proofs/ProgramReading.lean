import WordC.Proofs.ExprReading
import WordC.Proofs.ProgramPrinting
import WordC.Proofs.ReadingLogic

/-!
# Written programs are read back

A readable tree is what the reader makes of its lexemes. The one condition on what follows is that
no `else` comes behind a statement that ends in a branch without one. The bound of the readers is
counted in lexemes, as with expressions.
-/

namespace WordC.Parse

open Step

variable {α β : Type} {stop : Option Kind → Prop} {ls : List Lexeme} {b : β} {f : Nat}

/-! ### Counting lexemes -/

/-- No list has more parts than lexemes. -/
theorem length_le_flatMap {xs : List α} {g : α → List Lexeme} (h : ∀ x ∈ xs, g x ≠ []) :
    xs.length ≤ (xs.flatMap g).length := by
  induction xs with
  | nil => exact Nat.zero_le _
  | cons x xs ih =>
    obtain ⟨hx, hxs⟩ := List.forall_mem_cons.mp h
    have hpos := List.length_pos_iff.mpr hx
    have hmore := ih hxs
    rw [List.flatMap_cons, List.length_append, List.length_cons]
    omega

theorem length_le_of_mem {x : α} {xs : List α} (h : x ∈ xs) (g : α → List Lexeme) :
    (g x).length ≤ (xs.flatMap g).length := by
  rw [List.flatMap_def]
  exact (List.sublist_flatten_of_mem (List.mem_map_of_mem h)).length_le

variable {ss : List Stmt} {e : Expr} {t : Token} {d : Decl} {x : String}

theorem length_le_lexemesAll {s : Stmt} (h : s ∈ ss) :
    s.lexemes.length ≤ (Stmt.lexemesAll ss).length := by
  rw [Stmt.lexemesAll_eq]
  exact length_le_of_mem h Stmt.lexemes

/-! ### Expressions -/

theorem divides_semicolon : Divides .semicolon := by simp [Divides]

theorem divides_assign : Divides .assign := by simp [Divides]

theorem reads_readable (he : e.Readable) : Reads Text.hexText e :=
  reads_of_writable (fun n _ => Text.literal?_hexText n) e he

theorem takes_expr (he : e.Readable) (hf : e.written16.length < f) {s : Symbol} (hs : Divides s) :
    (exprAt f).Takes e.written16 e (· = some (.symbol s)) := by
  intro passed ts rest hts hrest
  have hlength : ts.length = e.written16.length := by rw [← hts, List.length_map]
  refine (reads_readable he).whole f passed ts rest hts (by omega) ?_
  intro t ht
  rw [ht, Option.map_some] at hrest
  rw [Option.some.inj hrest]
  exact hs.closes_kind 0

/-- An expression in front of a symbol that ends it. -/
theorem takes_expr_bind (he : e.Readable) (hf : e.written16.length < f) {s : Symbol}
    (hs : Divides s) {g : Expr → Parse β} (hg : (g e).Takes (Lexeme.symbol s :: ls) b stop) :
    (exprAt f >>= g).Takes (e.written16 ++ Lexeme.symbol s :: ls) b stop :=
  (takes_expr he hf hs).bind hg fun _ _ => rfl

/-! ### Declarations -/

theorem takes_initial {init : Option Expr} (hinit : ∀ e ∈ init, e.Readable)
    (hf : (initialLexemes init).length ≤ f) :
    (initial f).Takes (initialLexemes init) init (· = some (.symbol .semicolon)) := by
  unfold initial
  cases init with
  | none =>
    refine takes_accept_skip ?_ (takes_pure none)
    rintro j rfl
    decide
  | some e =>
    rw [initialLexemes, List.length_cons] at hf
    exact takes_accept_bind rfl ((takes_expr (hinit e rfl) (by omega) divides_semicolon).map some)

theorem takes_qualifiers_stop (n : Nat) (r v : Bool) (t : IntType) :
    (qualifiers (n + 1) r v).Takes [] (r, v) (· = some (.keyword t.keyword)) := by
  rw [qualifiers]
  refine takes_kind?_nil ?_
  cases t <;> exact takes_pure (r, v)

theorem takes_qualifiers (t : IntType) (r v : Bool) (hf : (qualifierLexemes r v).length < f) :
    (qualifiers f false false).Takes (qualifierLexemes r v) (r,
      v) (· = some (.keyword t.keyword)) := by
  have hvolatile (n : Nat) (r : Bool) :
      (qualifiers (n + 2) r false).Takes [.keyword .volatile] (r, true)
      (· = some (.keyword t.keyword)) := by
    rw [qualifiers]
    exact takes_kind?_bind (takes_advance_bind fun _ _ => takes_qualifiers_stop n r true t)
  have hregister (n : Nat) {ls : List Lexeme} {v : Bool}
      (h : (qualifiers (n + 1) true false).Takes ls (true, v) (· = some (.keyword t.keyword))) :
      (qualifiers (n + 2) false false).Takes (.keyword .register :: ls) (true, v)
      (· = some (.keyword t.keyword)) := by
    rw [qualifiers]
    exact takes_kind?_bind (takes_advance_bind fun _ _ => h)
  cases r <;> cases v
  · obtain ⟨n, rfl⟩ : ∃ n, f = n + 1 := ⟨f - 1, by omega⟩
    exact takes_qualifiers_stop n false false t
  · obtain ⟨n, rfl⟩ : ∃ n, f = n + 2 := ⟨f - 2, by simp [qualifierLexemes] at hf; omega⟩
    exact hvolatile n false
  · obtain ⟨n, rfl⟩ : ∃ n, f = n + 2 := ⟨f - 2, by simp [qualifierLexemes] at hf; omega⟩
    exact hregister n (takes_qualifiers_stop n true false t)
  · obtain ⟨n, rfl⟩ : ∃ n, f = n + 3 := ⟨f - 3, by simp [qualifierLexemes] at hf; omega⟩
    exact hregister (n + 1) (hvolatile n true)

theorem takes_declaredType (t : IntType) : declaredType.Takes [.keyword t.keyword] t anywhere := by
  refine takes_current?_bind fun u hu => ?_
  have hkind : u.kind = .keyword t.keyword := congrArg Lexeme.kind hu
  cases t <;> (simp only [hkind, IntType.keyword]; exact takes_advance_bind fun _ _ => takes_pure _)

/-- The values of an array up to their closing brace. -/
theorem takes_values {es : List Expr} (hes : ∀ e ∈ es, e.Readable)
    (hf : (Expr.argLexemes Text.hexText es).length < f) :
    (itemsUntil f (exprAt f) .rightBrace).Takes
    (Expr.argLexemes Text.hexText es ++ [.symbol .rightBrace]) es anywhere := by
  intro passed ts rest hts _
  have hlength : ts.length = (Expr.argLexemes Text.hexText es).length + 1 := by
    rw [← List.length_map Token.lexeme, hts, List.length_append, List.length_singleton]
  refine itemsUntil_args (.inr rfl) ?_ ?_ hts (by omega) (by omega) passed rest
  · exact fun e he => (reads_readable (hes e he)).whole
  · exact fun e he => e.opens_lexemes _ (hes e he)

theorem takes_arrayDecl {d : ArrayDecl} (hd : (Decl.array d).Readable)
    (hsize : d.size.written16.length < f) (hinit : (valuesLexemes d.init).length < f) :
    (arrayDecl f d.name d.register d.volatile).Takes
      (d.size.written16 ++ .symbol .rightBracket :: (valuesLexemes d.init ++ [.symbol .semicolon]))
      d anywhere := by
  obtain ⟨name, size, init, register, volatile⟩ := d
  refine takes_expr_bind hd.1 hsize (.inr (.inl rfl)) (takes_symbol_bind ?_)
  cases init with
  | none => exact takes_accept_other (by simp) (takes_symbol_bind (takes_pure _))
  | some es =>
    simp only [valuesLexemes, List.length_cons, List.length_append, List.length_nil] at hinit
    have hvalues := (takes_values (hd.2 es rfl) (show _ < f by omega)).map some
    refine takes_accept_bind rfl ?_
    dsimp only
    rw [if_pos rfl]
    exact takes_symbol_bind (hvalues.bind (takes_symbol_bind (takes_pure _)) fun _ _ => trivial)

theorem takes_pointerDecl {d : PointerDecl} (hd : (Decl.pointer d).Readable)
    (hf : (initialLexemes d.init).length ≤ f) : (pointerDecl f d.name d.register d.volatile).Takes
    (initialLexemes d.init ++ [.symbol .semicolon]) d anywhere :=
  (takes_initial hd hf).bind (takes_symbol_bind (takes_pure _)) fun _ _ => rfl

theorem takes_varDecl {d : VarDecl} (hd : (Decl.var d).Readable)
    (hf : (initialLexemes d.init).length ≤ f) (ht : t.text = d.name) :
    (varDecl f t d.type d.register.isSome d.volatile).Takes
    (initialLexemes d.init ++ [.symbol .semicolon]) d anywhere := by
  obtain ⟨name, init, type, register, volatile⟩ := d
  obtain rfl : t.text = name := ht
  have hinitial := takes_initial hd.1 hf
  unfold varDecl
  cases register with
  | none => exact hinitial.bind (takes_symbol_bind (takes_pure _)) fun _ _ => rfl
  | some r =>
    have hnumber : (registerOf t.text t.line).Takes [] r anywhere := by
      intro passed ts rest hts _
      obtain rfl := List.map_eq_nil_iff.mp hts
      exact hd.2 r rfl t.line ⟨passed, rest⟩
    exact (hnumber.map some).bind (hinitial.bind (takes_symbol_bind (takes_pure _)) fun _ _ => rfl)
      fun _ _ => trivial

/-- What follows the name of a variable or pointer opens no bracket. -/
theorem following_initial (init : Option Expr) (k : Option Kind) :
    following (initialLexemes init ++ [.symbol .semicolon]) k ≠ some (.symbol .leftBracket) := by
  cases init <;> simp [initialLexemes]

theorem takes_declAt (hd : d.Readable) (hf : d.lexemes.length < f) :
    (declAt f).Takes d.lexemes d anywhere := by
  unfold declAt
  cases d with
  | var d =>
    simp only [Decl.lexemes, List.length_append, List.length_cons] at hf
    refine (takes_qualifiers d.type _ _ (by omega)).bind ?_ fun _ _ => rfl
    refine (takes_declaredType d.type).bind ?_ fun _ _ => trivial
    refine takes_accept_other (by simp) (takes_expect_bind rfl fun t ht => ?_)
    refine takes_accept_skip (fun k _ => following_initial d.init k) ?_
    exact (takes_varDecl hd (by omega) (congrArg Lexeme.text ht)).map Decl.var
  | array d =>
    simp only [Decl.lexemes, List.length_append, List.length_cons] at hf
    refine (takes_qualifiers .uint32 _ _ (by omega)).bind ?_ fun _ _ => rfl
    refine (takes_declaredType .uint32).bind ?_ fun _ _ => trivial
    refine takes_accept_other (by simp) (takes_expect_bind rfl fun t ht => takes_accept_bind rfl ?_)
    rw [show t.text = d.name from congrArg Lexeme.text ht]
    exact (takes_arrayDecl hd (by omega) (by omega)).map Decl.array
  | pointer d =>
    simp only [Decl.lexemes, List.length_append, List.length_cons] at hf
    refine (takes_qualifiers .uint32 _ _ (by omega)).bind ?_ fun _ _ => rfl
    refine (takes_declaredType .uint32).bind ?_ fun _ _ => trivial
    refine takes_accept_bind rfl (takes_expect_bind rfl fun t ht => ?_)
    refine takes_accept_skip (fun k _ => following_initial d.init k) ?_
    rw [show t.text = d.name from congrArg Lexeme.text ht]
    exact (takes_pointerDecl hd (by omega)).map Decl.pointer

/-! ### Simple statements -/

theorem takes_assigned (he : e.Readable) (hf : e.written16.length < f) :
    (assigned f).Takes (.symbol .assign :: (e.written16 ++ [.symbol .semicolon])) e anywhere := by
  unfold assigned
  exact takes_symbol_bind
    (takes_expr_bind he hf divides_semicolon (takes_symbol_bind (takes_pure e)))

theorem takes_assign (he : e.Readable) (hf : e.written16.length < f) :
    (assignmentAt f).Takes (Stmt.assign x e).lexemes (.assign x e) anywhere := by
  rw [Stmt.lexemes]
  refine takes_current?_bind fun t ht => ?_
  simp only [t.kind_of_name ht]
  refine takes_advance_bind fun _ _ => takes_accept_other (by simp) ?_
  rw [t.text_of_name ht]
  exact (takes_assigned he hf).map (Stmt.assign x)

theorem takes_assignIndex {a : String} {i : Expr} (hi : i.Readable) (he : e.Readable)
    (hif : i.written16.length < f) (hef : e.written16.length < f) :
    (assignmentAt f).Takes (Stmt.assignIndex a i e).lexemes (.assignIndex a i e) anywhere := by
  rw [Stmt.lexemes]
  refine takes_current?_bind fun t ht => ?_
  simp only [t.kind_of_name ht]
  refine takes_advance_bind fun _ _ => takes_accept_bind rfl ?_
  rw [t.text_of_name ht]
  refine takes_expr_bind hi hif (.inr (.inl rfl)) (takes_symbol_bind ?_)
  exact (takes_assigned he hef).map (Stmt.assignIndex a i)

theorem takes_assignDeref {p : Expr} (hp : p.Readable) (he : e.Readable)
    (hpf : p.written16.length < f) (hef : e.written16.length < f) :
    (assignmentAt f).Takes (Stmt.assignDeref p e).lexemes (.assignDeref p e) anywhere := by
  rw [Stmt.lexemes]
  refine takes_current?_bind fun t ht => ?_
  simp only [t.kind_of_symbol ht]
  refine takes_advance_bind fun _ _ => takes_expr_bind hp hpf divides_assign ?_
  exact (takes_assigned he hef).map (Stmt.assignDeref p)

/-- Where an expression may be left out, the kind of its first lexeme shows that it is there. -/
theorem takes_kind?_opens {g : Option Kind → Parse β} (hls : Expr.Opens ls)
    (hg : ∀ k, k ∉ Expr.closingKinds → (g (some k)).Takes ls b stop) :
    (kind? >>= g).Takes ls b stop := by
  obtain ⟨l, rest, rfl, hl⟩ := hls
  exact takes_kind?_bind (hg l.kind hl)

theorem opens_written16 (he : e.Readable) : Expr.Opens e.written16 := e.opens_lexemes _ he

theorem ne_semicolon_of_not_closing {k : Kind} (hk : k ∉ Expr.closingKinds) :
    k ≠ .symbol .semicolon := by
  rintro rfl
  exact hk (by decide)

theorem takes_return {e : Option Expr} (he : ∀ v ∈ e, v.Readable)
    (hf : (Stmt.ret e).lexemes.length ≤ f) :
    (returnStatement f).Takes (Stmt.ret e).lexemes (.ret e) anywhere := by
  cases e with
  | none => exact takes_advance_bind fun _ _ => takes_kind?_bind (takes_symbol_bind (takes_pure _))
  | some e =>
    rw [Stmt.lexemes] at hf ⊢
    simp only [List.length_cons, List.length_append] at hf
    refine takes_advance_bind fun _ _ =>
      takes_kind?_opens ((opens_written16 (he e rfl)).append _) fun k hk => ?_
    dsimp only
    rw [if_neg (ne_semicolon_of_not_closing hk)]
    have hexpr := (takes_expr (f := f) (he e rfl) (by omega) divides_semicolon).map some
    exact hexpr.bind (takes_symbol_bind (takes_pure _)) fun _ _ => rfl

theorem takes_asm (text : String) :
    asmStatement.Takes (Stmt.asm text).lexemes (.asm text) anywhere := by
  rw [Stmt.lexemes]
  refine takes_advance_bind fun _ _ => takes_expect_bind rfl fun t ht => takes_symbol_bind ?_
  rw [show t.text = text from congrArg Lexeme.text ht]
  exact takes_pure _

/-- A statement that is known by its name and the token behind it. -/
theorem takes_call (he : e.Readable) (hcall : e.startsCall = true) (hf : e.written16.length < f)
    (t : Token) : (namedStatement f t).Takes (Stmt.call e).lexemes (.call e) anywhere := by
  have hread : (exprAt f >>= fun e => symbol .semicolon >>=
        fun _ => pure (Stmt.call e)).Takes (Stmt.call e).lexemes
      (Stmt.call e) anywhere := by
    rw [Stmt.lexemes]
    exact takes_expr_bind he hf divides_semicolon (takes_symbol_bind (takes_pure _))
  obtain ⟨g, ls, hls⟩ := Expr.lexemes_of_startsCall Text.hexText hcall
  rw [Stmt.lexemes, Expr.written16, hls] at hread ⊢
  refine takes_next?_bind fun u hu => ?_
  have hkind : u.kind = .symbol .leftParen := congrArg Lexeme.kind hu
  simp only [Option.map_some, hkind]
  exact hread

theorem takes_increment (ht : t.text = x) :
    (namedStatement f t).Takes (Stmt.increment x false).lexemes (.increment x false) anywhere := by
  rw [Stmt.lexemes]
  refine takes_next?_bind fun u hu => ?_
  have hkind : u.kind = .symbol .plusPlus := congrArg Lexeme.kind hu
  simp only [Option.map_some, hkind, ht]
  exact takes_advance_bind fun _ _ => takes_advance_bind fun _ _ => takes_symbol_bind (takes_pure _)

theorem takes_decrement (ht : t.text = x) :
    (namedStatement f t).Takes (Stmt.decrement x false).lexemes (.decrement x false) anywhere := by
  rw [Stmt.lexemes]
  refine takes_next?_bind fun u hu => ?_
  have hkind : u.kind = .symbol .minusMinus := congrArg Lexeme.kind hu
  simp only [Option.map_some, hkind, ht]
  exact takes_advance_bind fun _ _ => takes_advance_bind fun _ _ => takes_symbol_bind (takes_pure _)

/-! ### Parts of a loop head -/

theorem takes_forVariable {d : VarDecl} (hd : (ForInit.declare d).Readable)
    (hf : (initialLexemes d.init).length ≤ f) : (forVariable f d.type).Takes
    (ForInit.declare d).lexemes (.declare d) (· = some (.symbol .semicolon)) := by
  obtain ⟨name, init, type, register, volatile⟩ := d
  obtain ⟨hinit, hregister, hvolatile⟩ := hd
  obtain rfl : register = none := hregister
  obtain rfl : volatile = false := hvolatile
  refine takes_advance_bind fun _ _ => takes_identifier_bind ?_
  exact (takes_initial hinit hf).map fun init => ForInit.declare { name, init, type }

theorem takes_forInit {init : Option ForInit} (hinit : ∀ i ∈ init, i.Readable)
    (hf : ((init.map ForInit.lexemes).getD []).length ≤ f) : (forInit f).Takes
    ((init.map ForInit.lexemes).getD []) init (· = some (.symbol .semicolon)) := by
  unfold forInit
  cases init with
  | none =>
    refine takes_current?_nil fun t ht => ?_
    simp only [ht]
    exact takes_pure none
  | some i =>
    have hi : i.Readable := hinit i rfl
    cases i with
    | declare d =>
      simp only [Option.map_some, Option.getD_some, ForInit.lexemes, List.length_cons] at hf ⊢
      refine takes_current?_bind fun t ht => ?_
      have hkind := t.kind_of_keyword ht
      have hread := (takes_forVariable hi (show _ ≤ f by omega)).map some
      cases htype : d.type <;>
        (rw [ForInit.lexemes, htype] at hread; simp only [hkind, htype]; exact hread)
    | assign x e =>
      simp only [Option.map_some, Option.getD_some, ForInit.lexemes, List.length_cons] at hf ⊢
      refine takes_current?_bind fun t ht => ?_
      simp only [t.kind_of_name ht]
      refine takes_next?_bind fun u hu => ?_
      have hnext : (some u).map Token.kind = some (.symbol .assign) :=
        congrArg some (congrArg Lexeme.kind hu)
      rw [t.text_of_name ht, if_pos hnext]
      refine takes_advance_bind fun _ _ => takes_advance_bind fun _ _ => ?_
      exact (takes_expr hi (by omega) divides_semicolon).map fun e => some (ForInit.assign x e)

theorem takes_forCondition {c : Option Expr} (hc : ∀ e ∈ c, e.Readable)
    (hf : ((c.map Expr.written16).getD []).length < f) :
    (forCondition f).Takes ((c.map Expr.written16).getD []) c (· = some (.symbol .semicolon)) := by
  unfold forCondition
  cases c with
  | none => exact takes_kind?_nil (takes_pure none)
  | some e =>
    have he : e.Readable := hc e rfl
    refine takes_kind?_opens (opens_written16 he) fun k hk => ?_
    dsimp only
    rw [if_neg (ne_semicolon_of_not_closing hk)]
    exact (takes_expr he hf divides_semicolon).map some

theorem takes_forStep {step : Option ForStep} (hstep : ∀ s ∈ step, s.Readable)
    (hf : ((step.map ForStep.lexemes).getD []).length ≤ f) : (forStep f).Takes
    ((step.map ForStep.lexemes).getD []) step (· = some (.symbol .rightParen)) := by
  unfold forStep
  cases step with
  | none =>
    refine takes_current?_nil fun t ht => ?_
    simp only [ht]
    exact takes_pure none
  | some s =>
    cases s with
    | increment x before =>
      cases before <;> simp only [Option.map_some, Option.getD_some, ForStep.lexemes]
      · refine takes_current?_bind fun t ht => ?_
        simp only [t.kind_of_name ht, t.text_of_name ht]
        exact takes_advance_bind fun _ _ => takes_accept_bind rfl (takes_pure _)
      · refine takes_current?_bind fun t ht => ?_
        simp only [t.kind_of_symbol ht]
        exact takes_advance_bind fun _ _ => takes_identifier_bind (takes_pure _)
    | decrement x before =>
      cases before <;> simp only [Option.map_some, Option.getD_some, ForStep.lexemes]
      · refine takes_current?_bind fun t ht => ?_
        simp only [t.kind_of_name ht, t.text_of_name ht]
        exact takes_advance_bind fun _ _ =>
          takes_accept_other (by simp) (takes_accept_bind rfl (takes_pure _))
      · refine takes_current?_bind fun t ht => ?_
        simp only [t.kind_of_symbol ht]
        exact takes_advance_bind fun _ _ => takes_identifier_bind (takes_pure _)
    | assign x e =>
      simp only [Option.map_some, Option.getD_some, ForStep.lexemes, List.length_cons] at hf ⊢
      refine takes_current?_bind fun t ht => ?_
      simp only [t.kind_of_name ht, t.text_of_name ht]
      refine takes_advance_bind fun _ _ =>
        takes_accept_other (by simp) (takes_accept_other (by simp) ?_)
      refine takes_accept_bind rfl ?_
      exact (takes_expr (hstep _ rfl) (by omega) (.inl rfl)).map fun e => some (ForStep.assign x e)

/-! ### Branches and loops -/

/-- What may follow a statement: an `else` only where it would not be taken in. -/
def EndsStmt (s : Stmt) (k : Option Kind) : Prop := s.endsOpen = true → k ≠ some (.keyword .elseKw)

theorem takes_condition_bind {c : Expr} (hc : c.Readable) (hf : c.written16.length < f)
    {g : Expr → Parse β} (hg : (g c).Takes ls b stop) :
    (condition f >>= g).Takes (Stmt.conditionLexemes c ls) b stop := by
  have hcondition : (condition f).Takes
      (.symbol .leftParen :: (c.written16 ++ [.symbol .rightParen])) c anywhere :=
    takes_symbol_bind (takes_expr_bind hc hf (.inl rfl) (takes_symbol_bind (takes_pure c)))
  have hsplit : Stmt.conditionLexemes c ls =
      .symbol .leftParen :: (c.written16 ++ [.symbol .rightParen]) ++ ls := by
    simp [Stmt.conditionLexemes]
  rw [hsplit]
  exact hcondition.bind hg fun _ _ => trivial

section Nested

variable {stmt : Parse Stmt} {c : Expr} {s t : Stmt}

theorem takes_ifThen (hc : c.Readable) (hf : c.written16.length < f)
    (hs : stmt.Takes s.lexemes s (EndsStmt s)) : (ifStatement f stmt).Takes
    (Stmt.ifThen c s).lexemes (.ifThen c s) (EndsStmt (.ifThen c s)) := by
  rw [Stmt.lexemes, ← List.append_nil s.lexemes]
  refine takes_advance_bind fun _ _ => takes_condition_bind hc hf ?_
  -- What follows the branch follows its body, and it is no `else`: neither the body nor the branch
  -- takes one in.
  exact hs.bind (takes_accept_skip (fun _ hk => hk rfl) (takes_pure _)) fun k hk _ => hk rfl

theorem takes_ifElse (hc : c.Readable) (hf : c.written16.length < f)
    (hs : stmt.Takes s.lexemes s (EndsStmt s)) (hopen : s.endsOpen = false)
    (ht : stmt.Takes t.lexemes t (EndsStmt t)) : (ifStatement f stmt).Takes
    (Stmt.ifElse c s t).lexemes (.ifElse c s t) (EndsStmt (.ifElse c s t)) := by
  rw [Stmt.lexemes]
  refine takes_advance_bind fun _ _ => takes_condition_bind hc hf ?_
  -- An `else` follows the body, which is why the body must not end in an open branch.
  refine hs.bind (takes_accept_bind rfl (ht.map (Stmt.ifElse c s))) fun _ _ hopen' => ?_
  exact absurd (hopen.symm.trans hopen') Bool.false_ne_true

theorem takes_while (hc : c.Readable) (hf : c.written16.length < f)
    (hs : stmt.Takes s.lexemes s (EndsStmt s)) : (whileStatement f stmt).Takes
    (Stmt.whileLoop c s).lexemes (.whileLoop c s) (EndsStmt (.whileLoop c s)) := by
  rw [Stmt.lexemes]
  exact takes_advance_bind fun _ _ => takes_condition_bind hc hf (hs.map (Stmt.whileLoop c))

theorem takes_doWhile (hc : c.Readable) (hf : c.written16.length < f)
    (hs : stmt.Takes s.lexemes s (EndsStmt s)) :
    (doStatement f stmt).Takes (Stmt.doWhile s c).lexemes (.doWhile s c) anywhere := by
  rw [Stmt.lexemes]
  refine takes_advance_bind fun _ _ => hs.bind ?_ fun _ _ _ => by simp
  exact takes_keyword_bind rfl (takes_condition_bind hc hf (takes_symbol_bind (takes_pure _)))

theorem takes_for {init : Option ForInit} {cond : Option Expr} {step : Option ForStep}
    (hr : (Stmt.forLoop init cond step s).Readable)
    (hf : (Stmt.forLoop init cond step s).lexemes.length ≤ f)
    (hs : stmt.Takes s.lexemes s (EndsStmt s)) :
    (forStatement f stmt).Takes (Stmt.forLoop init cond step s).lexemes (.forLoop init cond step s)
      (EndsStmt (.forLoop init cond step s)) := by
  rw [Stmt.Readable] at hr
  rw [Stmt.lexemes] at hf ⊢
  simp only [List.length_cons, List.length_append] at hf
  refine takes_advance_bind fun _ _ => takes_symbol_bind ?_
  refine (takes_forInit hr.1 (by omega)).bind (takes_symbol_bind ?_) fun _ _ => rfl
  refine (takes_forCondition hr.2.1 (by omega)).bind (takes_symbol_bind ?_) fun _ _ => rfl
  refine (takes_forStep hr.2.2.1 (by omega)).bind (takes_symbol_bind ?_) fun _ _ => rfl
  exact hs.map (Stmt.forLoop init cond step)

end Nested

/-! ### Blocks -/

/-- Behind a statement of a block comes another one or the closing brace, so never an `else`. -/
theorem following_flatMap_lexemes (hss : ∀ s ∈ ss, s.Readable) :
    following (ss.flatMap Stmt.lexemes) (some (.symbol .rightBrace)) ≠ some (.keyword .elseKw) := by
  cases ss with
  | nil => simp
  | cons s ss =>
    obtain ⟨l, rest, hl, -, helse⟩ := Stmt.begins_lexemes (hss s List.mem_cons_self)
    rw [List.flatMap_cons, hl]
    exact fun h => helse (Option.some.inj h)

theorem takes_statements {stmt : Parse Stmt} (hr : ∀ s ∈ ss, s.Readable)
    (hss : ∀ s ∈ ss, stmt.Takes s.lexemes s (EndsStmt s)) :
    ∀ (n : Nat) (done : List Stmt), ss.length < n →
      (statements stmt n done).Takes (ss.flatMap Stmt.lexemes) (done.reverse ++ ss)
      (· = some (.symbol .rightBrace)) := by
  induction ss with
  | nil =>
    intro n done hn
    obtain ⟨n, rfl⟩ : ∃ m, n = m + 1 := ⟨n - 1, by omega⟩
    rw [statements, List.append_nil]
    exact takes_kind?_nil (takes_pure _)
  | cons s ss ih =>
    intro n done hn
    rw [List.length_cons] at hn
    obtain ⟨n, rfl⟩ : ∃ m, n = m + 1 := ⟨n - 1, by omega⟩
    obtain ⟨hs, hmore⟩ := List.forall_mem_cons.mp hss
    obtain ⟨hrs, hrmore⟩ := List.forall_mem_cons.mp hr
    obtain ⟨l, rest, hl, hbrace, -⟩ := Stmt.begins_lexemes hrs
    have hloop : (stmt >>= fun x =>
          statements stmt n (x :: done)).Takes (s.lexemes ++ ss.flatMap Stmt.lexemes)
        (done.reverse ++ s :: ss) (· = some (.symbol .rightBrace)) := by
      refine hs.bind ?_ ?_
      · have hrest := ih hrmore hmore n (s :: done) (by omega)
        rwa [List.reverse_cons, List.append_assoc] at hrest
      · rintro k rfl -
        exact following_flatMap_lexemes hrmore
    rw [statements, List.flatMap_cons]
    rw [hl] at hloop ⊢
    refine takes_kind?_bind ?_
    dsimp only
    rw [if_neg hbrace]
    exact hloop

theorem takes_blockWith {stmt : Parse Stmt} (hr : Stmt.AllReadable ss)
    (hss : ∀ s ∈ ss, stmt.Takes s.lexemes s (EndsStmt s)) (hf : (Stmt.lexemesAll ss).length < f) :
    (blockWith f stmt).Takes (.symbol .leftBrace ::
      (Stmt.lexemesAll ss ++ [.symbol .rightBrace])) ss anywhere := by
  rw [Stmt.lexemesAll_eq] at hf ⊢
  have hlength : ss.length < f :=
    Nat.lt_of_le_of_lt (length_le_flatMap fun s hs => (Stmt.begins_lexemes (hr.mem s hs)).ne_nil) hf
  refine takes_symbol_bind ?_
  exact (takes_statements hr.mem hss f [] hlength).bind
    (takes_symbol_bind (takes_pure ss)) fun _ _ => rfl

/-! ### Statements -/

theorem takes_stmtAt_decl (hd : d.Readable) (hf : d.lexemes.length < f + 1) :
    (stmtAt (f + 1)).Takes d.lexemes (.decl d) anywhere := by
  have hread := (takes_declAt hd hf).map Stmt.decl
  obtain ⟨k, hk, ls, hls⟩ := d.lexemes_eq_cons
  rw [hls] at hread ⊢
  refine takes_current?_bind fun t ht => ?_
  have hkind := t.kind_of_keyword ht
  simp only [declaring, List.mem_cons, List.not_mem_nil, or_false] at hk
  rcases hk with rfl | rfl | rfl | rfl <;> (simp only [hkind]; exact hread)

/-- The reader of statements gives a statement back, if its bound exceeds the number of lexemes. -/
def TakesStmt (s : Stmt) : Prop :=
  ∀ f, s.Readable → s.lexemes.length < f → (stmtAt f).Takes s.lexemes s (EndsStmt s)

theorem takesStmt_of_succ {s : Stmt}
    (h : ∀ f, s.Readable → s.lexemes.length ≤ f → (stmtAt (f + 1)).Takes s.lexemes s (EndsStmt s)) :
    TakesStmt s := by
  intro f hs hf
  obtain ⟨n, rfl⟩ : ∃ n, f = n + 1 := ⟨f - 1, by omega⟩
  exact h n hs (by omega)

theorem takes_stmtAt (s : Stmt) : TakesStmt s := by
  have hanywhere {p : Parse Stmt} {s : Stmt} (h : p.Takes s.lexemes s anywhere) :
      p.Takes s.lexemes s (EndsStmt s) :=
    h.weaken fun _ _ => trivial
  induction s using Stmt.tree_induction with
  | decl d =>
    refine takesStmt_of_succ fun f hs hf => ?_
    rw [Stmt.Readable] at hs
    rw [Stmt.lexemes] at hf
    exact hanywhere (takes_stmtAt_decl hs (by omega))
  | assign x e =>
    refine takesStmt_of_succ fun f hs hf => ?_
    rw [Stmt.Readable] at hs
    simp only [Stmt.lexemes, List.length_cons, List.length_append] at hf
    refine takes_current?_bind fun t ht => ?_
    simp only [t.kind_of_name ht]
    refine takes_next?_bind fun u hu => ?_
    simp only [Option.map_some, u.kind_of_symbol hu]
    exact hanywhere (takes_assign hs (by omega))
  | assignIndex a i e =>
    refine takesStmt_of_succ fun f hs hf => ?_
    rw [Stmt.Readable] at hs
    simp only [Stmt.lexemes, List.length_cons, List.length_append] at hf
    refine takes_current?_bind fun t ht => ?_
    simp only [t.kind_of_name ht]
    refine takes_next?_bind fun u hu => ?_
    simp only [Option.map_some, u.kind_of_symbol hu]
    exact hanywhere (takes_assignIndex hs.1 hs.2 (by omega) (by omega))
  | assignDeref p e =>
    refine takesStmt_of_succ fun f hs hf => ?_
    rw [Stmt.Readable] at hs
    simp only [Stmt.lexemes, List.length_cons, List.length_append] at hf
    have hread := hanywhere (takes_assignDeref (f := f + 1) hs.1 hs.2 (by omega) (by omega))
    -- The reader looks whether anything follows the star: the pointer does.
    obtain ⟨l, rest, hl, -⟩ := opens_written16 hs.1
    rw [Stmt.lexemes, hl] at hread ⊢
    refine takes_current?_bind fun t ht => ?_
    simp only [t.kind_of_symbol ht]
    exact takes_next?_bind fun _ _ => hread
  | ret e =>
    refine takesStmt_of_succ fun f hs hf => ?_
    rw [Stmt.Readable] at hs
    have hread := hanywhere (takes_return hs (Nat.le_succ_of_le hf))
    cases e <;>
    · refine takes_current?_bind fun t ht => ?_
      simp only [t.kind_of_keyword ht]
      exact hread
  | ifThen c s ih =>
    refine takesStmt_of_succ fun f hs hf => ?_
    rw [Stmt.Readable] at hs
    simp only [Stmt.lexemes, Stmt.conditionLexemes, List.length_cons, List.length_append] at hf
    refine takes_current?_bind fun t ht => ?_
    simp only [t.kind_of_keyword ht]
    exact takes_ifThen hs.1 (by omega) (ih f hs.2 (by omega))
  | ifElse c s t ihs iht =>
    refine takesStmt_of_succ fun f hs hf => ?_
    rw [Stmt.Readable] at hs
    simp only [Stmt.lexemes, Stmt.conditionLexemes, List.length_cons, List.length_append] at hf
    refine takes_current?_bind fun u hu => ?_
    simp only [u.kind_of_keyword hu]
    exact takes_ifElse hs.1 (by omega) (ihs f hs.2.1 (by omega)) hs.2.2.1
      (iht f hs.2.2.2 (by omega))
  | whileLoop c s ih =>
    refine takesStmt_of_succ fun f hs hf => ?_
    rw [Stmt.Readable] at hs
    simp only [Stmt.lexemes, Stmt.conditionLexemes, List.length_cons, List.length_append] at hf
    refine takes_current?_bind fun t ht => ?_
    simp only [t.kind_of_keyword ht]
    exact takes_while hs.1 (by omega) (ih f hs.2 (by omega))
  | doWhile s c ih =>
    refine takesStmt_of_succ fun f hs hf => ?_
    rw [Stmt.Readable] at hs
    simp only [Stmt.lexemes, Stmt.conditionLexemes, List.length_cons, List.length_append] at hf
    refine takes_current?_bind fun t ht => ?_
    simp only [t.kind_of_keyword ht]
    exact hanywhere (takes_doWhile hs.2 (by omega) (ih f hs.1 (by omega)))
  | forLoop init c step s ih =>
    refine takesStmt_of_succ fun f hs hf => ?_
    have hbody : s.Readable := by
      rw [Stmt.Readable] at hs
      exact hs.2.2.2
    have hlength := hf
    simp only [Stmt.lexemes, List.length_cons, List.length_append] at hlength
    refine takes_current?_bind fun t ht => ?_
    simp only [t.kind_of_keyword ht]
    exact takes_for hs (Nat.le_succ_of_le hf) (ih f hbody (by omega))
  | block ss ih =>
    refine takesStmt_of_succ fun f hs hf => ?_
    rw [Stmt.Readable] at hs
    simp only [Stmt.lexemes, List.length_cons, List.length_append] at hf
    have hparts : ∀ s ∈ ss, (stmtAt f).Takes s.lexemes s (EndsStmt s) := by
      intro s hmem
      have hle := length_le_lexemesAll hmem
      exact ih s hmem f (hs.mem s hmem) (by omega)
    have hread := (takes_blockWith (f := f + 1) hs hparts (by omega)).map Stmt.block
    refine takes_current?_bind fun t ht => ?_
    simp only [t.kind_of_symbol ht]
    exact hread.weaken fun _ _ => trivial
  | call e =>
    refine takesStmt_of_succ fun f hs hf => ?_
    rw [Stmt.Readable] at hs
    simp only [Stmt.lexemes, List.length_append] at hf
    have hread (t : Token) := hanywhere (takes_call (f := f + 1) hs.1 hs.2 (by omega) t)
    obtain ⟨g, ls, hls⟩ := Expr.lexemes_of_startsCall Text.hexText hs.2
    rw [Stmt.lexemes, Expr.written16, hls] at hread ⊢
    refine takes_current?_bind fun t ht => ?_
    simp only [t.kind_of_name ht]
    exact hread t
  | increment x before =>
    refine takesStmt_of_succ fun f _ _ => ?_
    cases before
    · refine takes_current?_bind fun t ht => ?_
      simp only [t.kind_of_name ht]
      exact hanywhere (takes_increment (congrArg Lexeme.text ht))
    · refine takes_current?_bind fun t ht => ?_
      simp only [t.kind_of_symbol ht]
      exact takes_advance_bind fun _ _ => takes_identifier_bind (takes_symbol_bind (takes_pure _))
  | decrement x before =>
    refine takesStmt_of_succ fun f _ _ => ?_
    cases before
    · refine takes_current?_bind fun t ht => ?_
      simp only [t.kind_of_name ht]
      exact hanywhere (takes_decrement (congrArg Lexeme.text ht))
    · refine takes_current?_bind fun t ht => ?_
      simp only [t.kind_of_symbol ht]
      exact takes_advance_bind fun _ _ => takes_identifier_bind (takes_symbol_bind (takes_pure _))
  | breakLoop =>
    refine takesStmt_of_succ fun f _ _ => ?_
    refine takes_current?_bind fun t ht => ?_
    simp only [t.kind_of_keyword ht]
    exact takes_advance_bind fun _ _ => takes_symbol_bind (takes_pure _)
  | continueLoop =>
    refine takesStmt_of_succ fun f _ _ => ?_
    refine takes_current?_bind fun t ht => ?_
    simp only [t.kind_of_keyword ht]
    exact takes_advance_bind fun _ _ => takes_symbol_bind (takes_pure _)
  | asm text =>
    refine takesStmt_of_succ fun f _ _ => ?_
    refine takes_current?_bind fun t ht => ?_
    simp only [show t.kind = .keyword .asm from congrArg Lexeme.kind ht]
    exact hanywhere (takes_asm text)
  | hole =>
    refine takesStmt_of_succ fun f hs _ => ?_
    rw [Stmt.Readable] at hs
    exact hs.elim

/-! ### Functions and programs -/

theorem takes_parameter (x : String) : parameter.Takes [.name x] x anywhere :=
  takes_accept_other (by simp) (takes_identifier x _)

theorem takes_moreParameters (xs : List String) :
    ∀ (n : Nat) (done : List String), xs.length < n →
      (moreParameters n done).Takes (xs.flatMap fun y => [.symbol .comma, .name y])
      (done.reverse ++ xs)
        (· = some (.symbol .rightParen)) := by
  induction xs with
  | nil =>
    intro n done hn
    obtain ⟨n, rfl⟩ : ∃ m, n = m + 1 := ⟨n - 1, by omega⟩
    rw [moreParameters, List.append_nil]
    refine takes_accept_skip ?_ (takes_pure _)
    rintro k rfl
    decide
  | cons x xs ih =>
    intro n done hn
    rw [List.length_cons] at hn
    obtain ⟨n, rfl⟩ : ∃ m, n = m + 1 := ⟨n - 1, by omega⟩
    have hrest := ih n (x :: done) (by omega)
    rw [List.reverse_cons, List.append_assoc] at hrest
    have hparameter : nextParameter.Takes [.name x] x anywhere :=
      takes_current?_bind fun _ _ => takes_parameter x
    rw [moreParameters]
    exact takes_accept_bind rfl (hparameter.bind hrest fun _ _ => trivial)

theorem takes_parameters (xs : List String) (hf : (nameLexemes xs).length ≤ f) :
    (parameters f).Takes (nameLexemes xs) xs (· = some (.symbol .rightParen)) := by
  unfold parameters
  cases xs with
  | nil => exact takes_kind?_nil (takes_pure [])
  | cons x xs =>
    have hlength : xs.length ≤ (xs.flatMap fun y => [Lexeme.symbol .comma, .name y]).length :=
      length_le_flatMap fun _ _ => List.cons_ne_nil _ _
    rw [nameLexemes, List.length_cons] at hf
    refine takes_kind?_bind ?_
    exact (takes_parameter x).bind (takes_moreParameters xs f [x] (by omega)) fun _ _ => trivial

theorem takes_functionAt {g : Func} (hg : g.Readable) (hf : g.lexemes.length ≤ f) :
    (functionAt f).Takes g.lexemes g anywhere := by
  obtain ⟨name, params, body, interrupt⟩ := g
  simp only [Func.lexemes, List.length_append, List.length_cons] at hf
  have hbody : (blockAt f).Takes
      (.symbol .leftBrace :: (Stmt.lexemesAll body ++ [.symbol .rightBrace])) body anywhere := by
    refine takes_blockWith hg.body ?_ (by omega)
    intro s hs
    have hle := length_le_lexemesAll hs
    exact takes_stmtAt s f (hg.body.mem s hs) (by omega)
  have hhandler : ¬ (interrupt = true ∧ params ≠ []) := fun h => h.2 (hg.params h.1)
  unfold functionAt Func.lexemes
  refine (takes_accept_flag rfl interrupt).bind
      (takes_keyword_bind rfl (takes_expect_bind rfl fun t ht => ?_)) fun _ _ => by simp
  rw [t.text_of_name ht]
  refine takes_symbol_bind
    ((takes_parameters params (by omega)).bind (takes_symbol_bind ?_) fun _ _ => rfl)
  rw [if_neg hhandler]
  exact hbody.map fun body => ({ name, params, body, interrupt } : Func)

/-- Lexemes that are read as a part of a program, which is known by the first of them. -/
def TakesItem (f : Nat) (ls : List Lexeme) (i : Item) : Prop :=
  ∃ l rest, ls = l :: rest ∧ l.kind ≠ .endOfInput ∧ ∀ t : Token, t.lexeme = l →
    (itemAt f t).Takes ls i anywhere

theorem TakesItem.ne_nil {i : Item} (h : TakesItem f ls i) : ls ≠ [] := by
  obtain ⟨l, rest, rfl, -⟩ := h
  exact List.cons_ne_nil l rest

theorem takesItem_global (hd : d.Readable) (hf : d.lexemes.length < f) :
    TakesItem f d.lexemes (.global d) := by
  have hread := (takes_declAt hd hf).map Item.global
  obtain ⟨k, hk, ls, hls⟩ := d.lexemes_eq_cons
  refine ⟨_, ls, hls, by simp, fun t ht => ?_⟩
  have hkind := t.kind_of_keyword ht
  simp only [declaring, List.mem_cons, List.not_mem_nil, or_false] at hk
  unfold itemAt
  rcases hk with rfl | rfl | rfl | rfl <;> (simp only [hkind]; exact hread)

theorem takesItem_function {g : Func} (hg : g.Readable) (hf : g.lexemes.length ≤ f) :
    TakesItem f g.lexemes (.function g) := by
  have hread := (takes_functionAt hg hf).map Item.function
  obtain ⟨name, params, body, interrupt⟩ := g
  cases interrupt with
  | false =>
    refine ⟨_, _, rfl, by simp, fun t ht => ?_⟩
    unfold itemAt
    simp only [t.kind_of_keyword ht]
    exact hread
  | true =>
    refine ⟨_, _, rfl, by simp, fun t ht => ?_⟩
    unfold itemAt
    simp only [t.kind_of_keyword ht]
    refine takes_next?_bind fun u hu => ?_
    have hnext : (some u).map Token.kind = some (.keyword .function) :=
      congrArg some (congrArg Lexeme.kind hu)
    rw [if_pos hnext]
    exact hread

section Items

variable {inner n : Nat} {fs : List Func} {gs : List Decl} {p : Program}

theorem takes_items_nil (fs : List Func) (gs : List Decl) :
    (items inner (n + 1) fs gs).Takes [] ⟨fs.reverse, gs.reverse⟩ (· = some .endOfInput) := by
  rw [items]
  refine takes_current?_nil fun t ht => ?_
  simp only [if_pos ht]
  exact takes_pure _

/-- The reader behind a part of a program. -/
def itemsAfter (inner n : Nat) (fs : List Func) (gs : List Decl) : Item → Parse Program
  | .function g => items inner n (g :: fs) gs
  | .global d => items inner n fs (d :: gs)

theorem takes_items_cons {ms : List Lexeme} {i : Item} (hi : TakesItem inner ms i)
    (h : (itemsAfter inner n fs gs i).Takes ls p stop) :
    (items inner (n + 1) fs gs).Takes (ms ++ ls) p stop := by
  obtain ⟨l, rest, rfl, hend, hread⟩ := hi
  rw [items]
  refine takes_current?_bind fun t ht => ?_
  have hkind : t.kind ≠ .endOfInput := fun h => hend ((congrArg Lexeme.kind ht).symm.trans h)
  simp only [if_neg hkind]
  exact (hread t ht).bind h fun _ _ => trivial

theorem takes_functions {functions : List Func}
    (h : ∀ g ∈ functions, TakesItem inner g.lexemes (.function g)) :
    ∀ (n : Nat) (fs : List Func), functions.length < n →
      (items inner n fs gs).Takes (functions.flatMap Func.lexemes)
      ⟨fs.reverse ++ functions, gs.reverse⟩
        (· = some .endOfInput) := by
  induction functions with
  | nil =>
    intro n fs hn
    obtain ⟨n, rfl⟩ : ∃ m, n = m + 1 := ⟨n - 1, by omega⟩
    rw [List.append_nil]
    exact takes_items_nil fs gs
  | cons g functions ih =>
    intro n fs hn
    rw [List.length_cons] at hn
    obtain ⟨n, rfl⟩ : ∃ m, n = m + 1 := ⟨n - 1, by omega⟩
    obtain ⟨hg, hmore⟩ := List.forall_mem_cons.mp h
    have hrest := ih hmore n (g :: fs) (by omega)
    rw [List.reverse_cons, List.append_assoc] at hrest
    exact takes_items_cons hg hrest

theorem takes_items {globals : List Decl} {functions : List Func}
    (hglobals : ∀ d ∈ globals, TakesItem inner d.lexemes (.global d))
    (hfunctions : ∀ g ∈ functions, TakesItem inner g.lexemes (.function g)) :
    ∀ (n : Nat) (gs : List Decl), globals.length + functions.length < n →
      (items inner n [] gs).Takes (globals.flatMap Decl.lexemes ++ functions.flatMap Func.lexemes)
        ⟨functions, gs.reverse ++ globals⟩ (· = some .endOfInput) := by
  induction globals with
  | nil =>
    intro n gs hn
    rw [List.append_nil]
    rw [List.length_nil, Nat.zero_add] at hn
    exact takes_functions hfunctions n [] hn
  | cons d globals ih =>
    intro n gs hn
    rw [List.length_cons] at hn
    obtain ⟨n, rfl⟩ : ∃ m, n = m + 1 := ⟨n - 1, by omega⟩
    obtain ⟨hd, hmore⟩ := List.forall_mem_cons.mp hglobals
    have hrest := ih hmore n (d :: gs) (by omega)
    rw [List.reverse_cons, List.append_assoc] at hrest
    rw [List.flatMap_cons, List.append_assoc]
    exact takes_items_cons hd hrest

end Items

theorem takes_programAt {p : Program} (hp : p.Readable) (hf : p.lexemes.length < f) :
    (programAt f).Takes p.lexemes p (· = some .endOfInput) := by
  rw [Program.lexemes, List.length_append] at hf
  have hglobals : ∀ d ∈ p.globals, TakesItem f d.lexemes (.global d) := by
    intro d hd
    have hle := length_le_of_mem hd Decl.lexemes
    exact takesItem_global (hp.globals d hd) (by omega)
  have hfunctions : ∀ g ∈ p.functions, TakesItem f g.lexemes (.function g) := by
    intro g hg
    have hle := length_le_of_mem hg Func.lexemes
    exact takesItem_function (hp.functions g hg) (by omega)
  have hcount : p.globals.length + p.functions.length < f := by
    have hg := length_le_flatMap fun d hd => (hglobals d hd).ne_nil
    have hf := length_le_flatMap fun g hg => (hfunctions g hg).ne_nil
    omega
  unfold programAt
  rw [Program.lexemes, ← List.append_nil (p.globals.flatMap _ ++ _)]
  refine (takes_items hglobals hfunctions f [] hcount).bind ?_ fun _ hk => hk
  have hmain : (⟨p.functions, [].reverse ++ p.globals⟩ : Program).hasMain = true := hp.main
  rw [if_pos hmain]
  exact takes_pure p

/-- A readable program is read back from its lexemes and the token that ends the input. -/
theorem ofTokens_lexemes {p : Program} (hp : p.Readable) {ts : List Token}
    (hts : ts.map Token.lexeme = p.lexemes) (q : Position) :
    Program.ofTokens (ts ++ [Token.endOfInput q]) = .ok p := by
  have hlength : p.lexemes.length = ts.length := by rw [← hts, List.length_map]
  have hbound : p.lexemes.length < (ts ++ [Token.endOfInput q]).length + 1 := by
    rw [hlength, List.length_append]
    omega
  have hread := takes_programAt hp hbound [] ts [Token.endOfInput q] hts rfl
  show (program ⟨[], ts ++ [Token.endOfInput q]⟩).1 = _
  unfold program
  rw [bind_ok (bound_apply _), hread]

end WordC.Parse
