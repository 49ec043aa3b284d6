import WordC.Stmt.Basic

/-!
# Induction over trees

Calls hold a list of arguments and blocks a list of statements. The principles here give such a list
as one hypothesis about its members, in place of a second statement about lists.
-/

namespace WordC

@[induction_eliminator]
theorem Expr.tree_induction {P : Expr → Prop}
    (literal : ∀ n, P (.literal n))
    (name : ∀ x, P (.name x))
    (call : ∀ f args, (∀ a ∈ args, P a) → P (.call f args))
    (index : ∀ a i, P i → P (.index a i))
    (addressOf : ∀ e, P e → P (.addressOf e))
    (deref : ∀ e, P e → P (.deref e))
    (unary : ∀ op e, P e → P (.unary op e))
    (binary : ∀ op l r, P l → P r → P (.binary op l r))
    (foreignUnary : ∀ op e, P e → P (.foreignUnary op e))
    (foreignBinary : ∀ op l r, P l → P r → P (.foreignBinary op l r))
    (hole : P .hole) (e : Expr) : P e :=
  @Expr.rec P (fun es => ∀ a ∈ es, P a) literal name call index addressOf deref unary binary
    foreignUnary foreignBinary hole (List.forall_mem_nil P)
    (fun _ _ he hes => List.forall_mem_cons.mpr ⟨he, hes⟩) e

/-- The same with more to build on for an address: the address of an element works out its index,
and the address of what a pointer points at works out the pointer. -/
theorem Expr.address_induction {P : Expr → Prop}
    (literal : ∀ n, P (.literal n))
    (name : ∀ x, P (.name x))
    (call : ∀ f args, (∀ a ∈ args, P a) → P (.call f args))
    (index : ∀ a i, P i → P (.index a i))
    (addressOf : ∀ e, (∀ a i, e = .index a i → P i) → (∀ d, e = .deref d → P d) → P (.addressOf e))
    (deref : ∀ e, P e → P (.deref e))
    (unary : ∀ op e, P e → P (.unary op e))
    (binary : ∀ op l r, P l → P r → P (.binary op l r))
    (foreignUnary : ∀ op e, P e → P (.foreignUnary op e))
    (foreignBinary : ∀ op l r, P l → P r → P (.foreignBinary op l r))
    (hole : P .hole) (e : Expr) : P e := by
  suffices h : P e ∧ (∀ a i, e = .index a i → P i) ∧ ∀ d, e = .deref d → P d from h.1
  induction e with
  | literal n => exact ⟨literal n, nofun, nofun⟩
  | name x => exact ⟨name x, nofun, nofun⟩
  | call f args ih => exact ⟨call f args fun a ha => (ih a ha).1, nofun, nofun⟩
  | index a i ih => exact ⟨index a i ih.1, fun _ _ h => (Expr.index.inj h).2 ▸ ih.1, nofun⟩
  | addressOf e ih => exact ⟨addressOf e ih.2.1 ih.2.2, nofun, nofun⟩
  | deref e ih => exact ⟨deref e ih.1, nofun, fun _ h => Expr.deref.inj h ▸ ih.1⟩
  | unary op e ih => exact ⟨unary op e ih.1, nofun, nofun⟩
  | binary op l r ihl ihr => exact ⟨binary op l r ihl.1 ihr.1, nofun, nofun⟩
  | foreignUnary op e ih => exact ⟨foreignUnary op e ih.1, nofun, nofun⟩
  | foreignBinary op l r ihl ihr => exact ⟨foreignBinary op l r ihl.1 ihr.1, nofun, nofun⟩
  | hole => exact ⟨hole, nofun, nofun⟩

@[induction_eliminator]
theorem Stmt.tree_induction {P : Stmt → Prop}
    (decl : ∀ d, P (.decl d))
    (assign : ∀ x e, P (.assign x e))
    (assignIndex : ∀ a i e, P (.assignIndex a i e))
    (assignDeref : ∀ p e, P (.assignDeref p e))
    (ret : ∀ e, P (.ret e))
    (ifThen : ∀ c s, P s → P (.ifThen c s))
    (ifElse : ∀ c s t, P s → P t → P (.ifElse c s t))
    (whileLoop : ∀ c s, P s → P (.whileLoop c s))
    (doWhile : ∀ s c, P s → P (.doWhile s c))
    (forLoop : ∀ init c step s, P s → P (.forLoop init c step s))
    (block : ∀ ss, (∀ s ∈ ss, P s) → P (.block ss))
    (call : ∀ e, P (.call e))
    (increment : ∀ x before, P (.increment x before))
    (decrement : ∀ x before, P (.decrement x before))
    (breakLoop : P .breakLoop) (continueLoop : P .continueLoop)
    (asm : ∀ text, P (.asm text)) (hole : P .hole) (s : Stmt) : P s :=
  @Stmt.rec P (fun ss => ∀ s ∈ ss, P s) decl assign assignIndex assignDeref ret ifThen ifElse
    whileLoop doWhile forLoop block call increment decrement breakLoop continueLoop asm hole
    (List.forall_mem_nil P) (fun _ _ hs hss => List.forall_mem_cons.mpr ⟨hs, hss⟩) s

end WordC
