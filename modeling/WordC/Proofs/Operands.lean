import WordC.Stmt.Basic
import WordC.Text.Numeral

/-!
# Operands

The operands of a text are its names and numbers, and those of a tree its names and numbers in the
order in which they are written. Two shapes of a text show an operand that a tree leaves out: an
index behind an index, with or without closing parentheses between them, and a name with nothing
done to it at the end of the head of a loop. Both show at one token, from what stands in front of
it, so a trail of three marks is enough to find them from left to right, and to join what is known
about the parts of a text.
-/

namespace WordC

/-- A name, or a number; a numeral that stands for no number gives none. -/
inductive SourceOperand where
  | name (x : String)
  | number (n : Option Nat)
  deriving DecidableEq, Repr

def Token.operand? (t : Token) : Option SourceOperand :=
  match t.kind with
  | .identifier => some (.name t.text)
  | .literal => some (.number (Text.literal? t.text))
  | _ => none

/-- The operands of a text. -/
def operandsOf (ts : List Token) : List SourceOperand := ts.filterMap Token.operand?

theorem operandsOf_append (us vs : List Token) :
    operandsOf (us ++ vs) = operandsOf us ++ operandsOf vs := List.filterMap_append

/-! ### Operands of trees -/

namespace Expr

mutual

/-- The operands of an expression. -/
@[simp] def operands : Expr → List SourceOperand
  | literal n => [.number (some n)]
  | name x => [.name x]
  | call f args => .name f :: allOperands args
  | index a i => .name a :: operands i
  | addressOf e => operands e
  | deref e => operands e
  | unary _ e => operands e
  | binary _ l r => operands l ++ operands r
  | foreignUnary _ e => operands e
  | foreignBinary _ l r => operands l ++ operands r
  | hole => []

def allOperands : List Expr → List SourceOperand
  | [] => []
  | e :: es => operands e ++ allOperands es

end

theorem allOperands_append (es ds : List Expr) :
    allOperands (es ++ ds) = allOperands es ++ allOperands ds := by
  induction es with
  | nil => simp [allOperands]
  | cons e es ih => simp [allOperands, ih]

/-- The operands of an expression that may be missing. -/
def operandsOf? (e : Option Expr) : List SourceOperand := (e.map operands).getD []

@[simp] theorem operandsOf?_some (e : Expr) : operandsOf? (some e) = e.operands := rfl

end Expr

def VarDecl.operands (d : VarDecl) : List SourceOperand := .name d.name :: Expr.operandsOf? d.init

def Decl.operands : Decl → List SourceOperand
  | var d => d.operands
  | array d => .name d.name :: (d.size.operands ++ Expr.allOperands (d.init.getD []))
  | pointer d => .name d.name :: Expr.operandsOf? d.init

def ForInit.operands : ForInit → List SourceOperand
  | declare d => d.operands
  | assign x e => .name x :: e.operands

def ForStep.operands : ForStep → List SourceOperand
  | increment x _ => [.name x]
  | decrement x _ => [.name x]
  | assign x e => .name x :: e.operands

namespace Stmt

mutual

/-- The operands of a statement. The condition of a loop stands where it is written, so behind the
body of a `do`. -/
@[simp] def operands : Stmt → List SourceOperand
  | decl d => d.operands
  | assign x e => .name x :: e.operands
  | assignIndex a i e => .name a :: (i.operands ++ e.operands)
  | assignDeref p e => p.operands ++ e.operands
  | ret e => Expr.operandsOf? e
  | ifThen c s => c.operands ++ operands s
  | ifElse c s t => c.operands ++ (operands s ++ operands t)
  | whileLoop c s => c.operands ++ operands s
  | doWhile s c => operands s ++ c.operands
  | forLoop init c step s =>
    (init.map ForInit.operands).getD [] ++
      (Expr.operandsOf? c ++ ((step.map ForStep.operands).getD [] ++ operands s))
  | block ss => allOperands ss
  | call e => e.operands
  | increment x _ => [.name x]
  | decrement x _ => [.name x]
  | breakLoop => []
  | continueLoop => []
  | asm _ => []
  | hole => []

def allOperands : List Stmt → List SourceOperand
  | [] => []
  | s :: ss => operands s ++ allOperands ss

end

theorem allOperands_append (ss rs : List Stmt) :
    allOperands (ss ++ rs) = allOperands ss ++ allOperands rs := by
  induction ss with
  | nil => simp [allOperands]
  | cons s ss ih => simp [allOperands, ih]

end Stmt

/-! ### Trails -/

/-- A symbol at which no operand is left out. -/
def Symbol.IsPlain (s : Symbol) : Prop := s ≠ .leftBracket ∧ s ≠ .rightParen

instance (s : Symbol) : Decidable s.IsPlain :=
  inferInstanceAs (Decidable (s ≠ .leftBracket ∧ s ≠ .rightParen))

/-- What the tokens in front of a place show. -/
structure Trail where
  /-- They end in an index, and in closing parentheses behind it. -/
  indexed : Bool := false
  /-- They end in a semicolon. -/
  ended : Bool := false
  /-- They end in a semicolon and a name. -/
  bare : Bool := false

namespace Trail

variable {σ : Trail} {k : Kind} {t : Token} {us vs : List Token} {os ps : List SourceOperand}

def next (σ : Trail) (k : Kind) : Trail where
  indexed := decide (k = .symbol .rightBracket) || (decide (k = .symbol .rightParen) && σ.indexed)
  ended := decide (k = .symbol .semicolon)
  bare := decide (k = .identifier) && σ.ended

/-- A token shows that an operand in front of it is left out. -/
def loses (σ : Trail) (k : Kind) : Bool :=
  (decide (k = .symbol .leftBracket) && σ.indexed) || (decide (k = .symbol .rightParen) && σ.bare)

def after (σ : Trail) (us : List Token) : Trail := us.foldl (fun σ t => σ.next t.kind) σ

/-- Some token of a text shows it. -/
def lossy (σ : Trail) : List Token → Bool
  | [] => false
  | t :: us => σ.loses t.kind || (σ.next t.kind).lossy us

theorem after_cons (σ : Trail) (t : Token) (us : List Token) :
    σ.after (t :: us) = (σ.next t.kind).after us := rfl

theorem after_append (σ : Trail) (us vs : List Token) :
    σ.after (us ++ vs) = (σ.after us).after vs := List.foldl_append

theorem lossy_append (σ : Trail) (us vs : List Token) :
    σ.lossy (us ++ vs) = (σ.lossy us || (σ.after us).lossy vs) := by
  induction us generalizing σ with
  | nil => rfl
  | cons t us ih => rw [List.cons_append, lossy, lossy, ih, Bool.or_assoc, after_cons]

/-! ### The two shapes -/

/-- Closing parentheses and an opening bracket stand in front. -/
def OpensIndex (ks : List Kind) : Prop :=
  ∃ n, List.replicate n (.symbol .rightParen) ++ [.symbol .leftBracket] <+: ks

/-- An index behind an index, or a name alone at the end of the head of a loop. -/
def Forgets (ks : List Kind) : Prop :=
  (∃ n, .symbol .rightBracket :: (List.replicate n (.symbol .rightParen) ++ [.symbol .leftBracket])
    <:+: ks) ∨ [.symbol .semicolon, .identifier, .symbol .rightParen] <:+: ks

theorem opensIndex_cons {ks : List Kind} : OpensIndex (k :: ks) ↔
    k = .symbol .leftBracket ∨ (k = .symbol .rightParen ∧ OpensIndex ks) := by
  constructor
  · rintro ⟨n, h⟩
    cases n with
    | zero => exact .inl (List.cons_prefix_cons.mp h).1.symm
    | succ n =>
      obtain ⟨hk, h⟩ := List.cons_prefix_cons.mp h
      exact .inr ⟨hk.symm, n, h⟩
  · rintro (rfl | ⟨rfl, n, h⟩)
    · exact ⟨0, List.cons_prefix_cons.mpr ⟨rfl, List.nil_prefix⟩⟩
    · exact ⟨n + 1, List.cons_prefix_cons.mpr ⟨rfl, h⟩⟩

theorem not_opensIndex_nil : ¬ OpensIndex [] := by
  rintro ⟨n, h⟩
  have := List.prefix_nil.mp h
  simp at this

theorem not_forgets_nil : ¬ Forgets [] := by
  rintro (⟨n, h⟩ | h)
  · have := List.infix_nil.mp h
    simp at this
  · have := List.infix_nil.mp h
    simp at this

theorem forgets_cons {ks : List Kind} :
    Forgets (k :: ks) ↔ (k = .symbol .rightBracket ∧ OpensIndex ks) ∨
      (k = .symbol .semicolon ∧ [.identifier, .symbol .rightParen] <+: ks) ∨ Forgets ks := by
  unfold Forgets OpensIndex
  simp only [List.infix_cons_iff, List.cons_prefix_cons]
  grind

/-- The marks are what is left of the shapes that a text may go on with. The induction goes over the
text, so each mark is used at its first token only. -/
theorem lossy_iff_of (us : List Token) : ∀ σ : Trail, σ.lossy us = true ↔
    (σ.indexed = true ∧ OpensIndex (us.map Token.kind)) ∨
      (σ.ended = true ∧ [.identifier, .symbol .rightParen] <+: us.map Token.kind) ∨
      (σ.bare = true ∧ [.symbol .rightParen] <+: us.map Token.kind) ∨
      Forgets (us.map Token.kind) := by
  induction us with
  | nil =>
    intro σ
    simp [lossy, not_opensIndex_nil, not_forgets_nil]
  | cons t us ih =>
    intro σ
    rw [lossy, Bool.or_eq_true, ih, List.map_cons, opensIndex_cons, forgets_cons,
      List.cons_prefix_cons, List.cons_prefix_cons]
    simp only [loses, next, Bool.or_eq_true, Bool.and_eq_true, decide_eq_true_iff,
      List.nil_prefix, and_true]
    grind

theorem lossy_iff (us : List Token) :
    ({} : Trail).lossy us = true ↔ Forgets (us.map Token.kind) := by
  rw [lossy_iff_of]
  simp

/-! ### Operands that are kept -/

/-- Operands of a text in its order, and all of them unless the text shows that one is left out. -/
def Kept (σ : Trail) (us : List Token) (os : List SourceOperand) : Prop :=
  os.Sublist (operandsOf us) ∧ (os = operandsOf us ↔ σ.lossy us = false)

theorem kept_nil (σ : Trail) : σ.Kept [] [] := ⟨.slnil, iff_of_true rfl rfl⟩

theorem Kept.append (hus : σ.Kept us os) (hvs : (σ.after us).Kept vs ps) :
    σ.Kept (us ++ vs) (os ++ ps) := by
  refine ⟨?_, ?_⟩
  · rw [operandsOf_append]
    exact hus.1.append hvs.1
  · rw [operandsOf_append, lossy_append, Bool.or_eq_false_iff, ← hus.2, ← hvs.2]
    constructor
    · intro heq
      -- neither part can make up for an operand that the other lacks
      have hlength := congrArg List.length heq
      rw [List.length_append, List.length_append] at hlength
      have hle := hus.1.length_le
      have hle' := hvs.1.length_le
      exact List.append_inj heq (by omega)
    · rintro ⟨rfl, rfl⟩
      rfl

theorem kept_of_lossy (hsub : os.Sublist (operandsOf us)) (hlt : os.length < (operandsOf us).length)
    (h : σ.lossy us = true) : σ.Kept us os := by
  refine ⟨hsub, iff_of_false ?_ ?_⟩
  · rintro rfl
    exact Nat.lt_irrefl _ hlt
  · rw [h]
    exact Bool.false_ne_true.symm

theorem Kept.cons (hloses : σ.loses t.kind = false) (h : (σ.next t.kind).Kept us os) :
    σ.Kept (t :: us) (t.operand?.toList ++ os) := by
  have hof : operandsOf [t] = t.operand?.toList := by
    rw [operandsOf]
    cases ht : t.operand? <;> simp [ht]
  have hfirst : σ.Kept [t] t.operand?.toList := by
    rw [← hof]
    exact ⟨.refl _, iff_of_true rfl (by simp [lossy, hloses])⟩
  exact hfirst.append h

variable {s : Symbol}

theorem Kept.symbol (ht : t.kind = .symbol s) (hloses : σ.loses (.symbol s) = false)
    (h : (σ.next (.symbol s)).Kept us os) : σ.Kept (t :: us) os := by
  rw [← ht] at hloses h
  simpa [Token.operand?, ht] using h.cons hloses

theorem Kept.keyword {w : Keyword} (ht : t.kind = .keyword w)
    (h : (σ.next (.keyword w)).Kept us os) : σ.Kept (t :: us) os := by
  rw [← ht] at h
  simpa [Token.operand?, ht] using h.cons (by rw [ht]; rfl)

theorem Kept.name (ht : t.kind = .identifier) (h : (σ.next .identifier).Kept us os) :
    σ.Kept (t :: us) (.name t.text :: os) := by
  rw [← ht] at h
  simpa [Token.operand?, ht] using h.cons (by rw [ht]; rfl)

/-- A last token that is no operand. -/
theorem Kept.close (h : σ.Kept us os) (ht : t.kind = .symbol s)
    (hloses : (σ.after us).loses (.symbol s) = false) : σ.Kept (us ++ [t]) os := by
  simpa using h.append ((kept_nil _).symbol ht hloses)

theorem loses_leftBracket (σ : Trail) : σ.loses (.symbol .leftBracket) = σ.indexed := by
  simp [loses]

theorem loses_rightParen (σ : Trail) : σ.loses (.symbol .rightParen) = σ.bare := by simp [loses]

/-- No semicolon, and no name behind one, stands directly in front. -/
def Calm (σ : Trail) : Prop := σ.ended = false ∧ σ.bare = false

theorem calm_symbol (h : s ≠ .semicolon) (σ : Trail) : (σ.next (.symbol s)).Calm := by
  refine ⟨?_, rfl⟩
  simp [next, h]

/-! ### Texts that keep their operands wherever they stand -/

variable {u : Token}

theorem loses_plain (h : s.IsPlain) (σ : Trail) : σ.loses (.symbol s) = false := by
  simp [loses, h.1, h.2]

/-- The operands of a text are kept behind anything, and it does not end in a name behind a
semicolon. -/
def Holds (us : List Token) (os : List SourceOperand) : Prop :=
  ∀ σ : Trail, σ.Kept us os ∧ (σ.after us).bare = false

/-- The same behind anything but a name behind a semicolon. -/
def Keeps (us : List Token) (os : List SourceOperand) : Prop :=
  ∀ σ : Trail, σ.bare = false → σ.Kept us os ∧ (σ.after us).bare = false

theorem Holds.keeps (h : Holds us os) : Keeps us os := fun σ _ => h σ

theorem keeps_nil : Keeps [] [] := fun σ hσ => ⟨kept_nil σ, hσ⟩

theorem Keeps.append (hus : Keeps us os) (hvs : Keeps vs ps) : Keeps (us ++ vs) (os ++ ps) := by
  intro σ hσ
  obtain ⟨hkept, hbare⟩ := hus σ hσ
  obtain ⟨hkept', hbare'⟩ := hvs (σ.after us) hbare
  exact ⟨hkept.append hkept', by rwa [after_append]⟩

theorem Keeps.symbol (h : Keeps us os) (ht : t.kind = .symbol s) (hs : s.IsPlain) :
    Holds (t :: us) os := by
  intro σ
  obtain ⟨hkept, hbare⟩ := h (σ.next (.symbol s)) rfl
  exact ⟨hkept.symbol ht (loses_plain hs σ), by rwa [after_cons, ht]⟩

theorem Keeps.keyword {w : Keyword} (h : Keeps us os) (ht : t.kind = .keyword w) :
    Holds (t :: us) os := by
  intro σ
  obtain ⟨hkept, hbare⟩ := h (σ.next (.keyword w)) rfl
  exact ⟨hkept.keyword ht, by rwa [after_cons, ht]⟩

theorem Holds.name (h : Holds us os) (ht : t.kind = .identifier) :
    Holds (t :: us) (.name t.text :: os) := by
  intro σ
  obtain ⟨hkept, hbare⟩ := h (σ.next .identifier)
  exact ⟨hkept.name ht, by rwa [after_cons, ht]⟩

theorem Holds.asmBlock (h : Holds us os) (ht : t.kind = .asmBlock) : Holds (t :: us) os := by
  intro σ
  obtain ⟨hkept, hbare⟩ := h (σ.next t.kind)
  refine ⟨?_, hbare⟩
  simpa [Token.operand?, ht] using hkept.cons (by rw [ht]; rfl)

/-- A name with a bracket behind it. The bracket is the first one, so nothing is left out there. -/
theorem Keeps.bracket (h : Keeps us os) (ht : t.kind = .identifier)
    (hu : u.kind = .symbol .leftBracket) : Holds (t :: u :: us) (.name t.text :: os) := by
  intro σ
  obtain ⟨hkept, hbare⟩ := h ((σ.next .identifier).next (.symbol .leftBracket)) rfl
  refine ⟨(hkept.symbol hu ?_).name ht, by rwa [after_cons, after_cons, ht, hu]⟩
  rw [loses_leftBracket]
  rfl

/-- Behind a text that may end in any way. -/
theorem Holds.behind (h : ∀ σ : Trail, σ.Kept us os) (hvs : Holds vs ps) :
    Holds (us ++ vs) (os ++ ps) := by
  intro σ
  obtain ⟨hkept, hbare⟩ := hvs (σ.after us)
  exact ⟨(h σ).append hkept, by rwa [after_append]⟩

theorem Holds.keepsBehind (h : ∀ σ : Trail, σ.bare = false → σ.Kept us os) (hvs : Holds vs ps) :
    Keeps (us ++ vs) (os ++ ps) := by
  intro σ hσ
  obtain ⟨hkept, hbare⟩ := hvs (σ.after us)
  exact ⟨(h σ hσ).append hkept, by rwa [after_append]⟩

theorem holds_semicolon (ht : t.kind = .symbol .semicolon) : Holds [t] [] :=
  keeps_nil.symbol ht (by decide)

theorem Holds.keywords (hus : ∀ t ∈ us, ∃ w, t.kind = .keyword w) (h : Holds vs os) :
    Holds (us ++ vs) os := by
  induction us with
  | nil => exact h
  | cons t us ih =>
    obtain ⟨⟨w, ht⟩, hus⟩ := List.forall_mem_cons.mp hus
    exact (ih hus).keeps.keyword ht

end Trail

end WordC
