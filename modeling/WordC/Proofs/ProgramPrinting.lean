import WordC.Proofs.ExprPrinting
import WordC.Stmt.Parse

/-!
# Writing programs

The lexemes of declarations, statements, functions and programs. Globals come first, then functions;
literals are hexadecimal; the body of a branch or loop is written as it is, without braces of its
own; an array or pointer is one of `uint32`, and parameters are bare names.

Not every tree can be written so that it is read back: a branch without an `else` must not stand
where an `else` follows, a call statement has to start with its call, a variable that is bound to a
register must have the name of that register. `Readable` says what is needed.
-/

namespace WordC

namespace Lexeme

def keyword (k : Keyword) : Lexeme := ⟨.keyword k, k.text⟩

def asmBlock (text : String) : Lexeme := ⟨.asmBlock, text⟩

@[simp]
theorem kind_symbol (s : Symbol) : (symbol s).kind = .symbol s := rfl

@[simp]
theorem kind_name (x : String) : (name x).kind = .identifier := rfl

@[simp]
theorem kind_keyword (k : Keyword) : (keyword k).kind = .keyword k := rfl

end Lexeme

namespace Token

variable (t : Token)

theorem kind_of_symbol {s : Symbol} (h : t.lexeme = .symbol s) : t.kind = .symbol s :=
  congrArg Lexeme.kind h

theorem kind_of_name {x : String} (h : t.lexeme = .name x) : t.kind = .identifier :=
  congrArg Lexeme.kind h

theorem text_of_name {x : String} (h : t.lexeme = .name x) : t.text = x := congrArg Lexeme.text h

theorem kind_of_keyword {k : Keyword} (h : t.lexeme = .keyword k) : t.kind = .keyword k :=
  congrArg Lexeme.kind h

end Token

/-! ### Declarations -/

/-- An expression with hexadecimal literals. -/
def Expr.written16 (e : Expr) : List Lexeme := e.lexemes Text.hexText

def IntType.keyword : IntType → Keyword
  | uint32 => .uint32
  | int32 => .int32

/-- The words in front of a declared type. -/
def qualifierLexemes (register volatile : Bool) : List Lexeme :=
  (if register then [.keyword .register] else []) ++ if volatile then [.keyword .volatile] else []

/-- An initial value, if there is one. -/
def initialLexemes : Option Expr → List Lexeme
  | some e => .symbol .assign :: e.written16
  | none => []

/-- The initial values of an array, if there are any; an empty list of them is written too. -/
def valuesLexemes : Option (List Expr) → List Lexeme
  | some es =>
    .symbol .assign :: .symbol .leftBrace ::
      (Expr.argLexemes Text.hexText es ++ [.symbol .rightBrace])
  | none => []

namespace Decl

def lexemes : Decl → List Lexeme
  | var d => qualifierLexemes d.register.isSome d.volatile ++
      .keyword d.type.keyword :: .name d.name :: (initialLexemes d.init ++ [.symbol .semicolon])
  | array d => qualifierLexemes d.register d.volatile ++
      .keyword .uint32 :: .name d.name :: .symbol .leftBracket :: (d.size.written16 ++
        .symbol .rightBracket :: (valuesLexemes d.init ++ [.symbol .semicolon]))
  | pointer d => qualifierLexemes d.register d.volatile ++
      .keyword .uint32 :: .symbol .star :: .name d.name ::
      (initialLexemes d.init ++ [.symbol .semicolon])

end Decl

/-! ### Statements -/

namespace ForInit

def lexemes : ForInit → List Lexeme
  | declare d => .keyword d.type.keyword :: .name d.name :: initialLexemes d.init
  | assign x e => .name x :: .symbol .assign :: e.written16

end ForInit

namespace ForStep

def lexemes : ForStep → List Lexeme
  | increment x true => [.symbol .plusPlus, .name x]
  | increment x false => [.name x, .symbol .plusPlus]
  | decrement x true => [.symbol .minusMinus, .name x]
  | decrement x false => [.name x, .symbol .minusMinus]
  | assign x e => .name x :: .symbol .assign :: e.written16

end ForStep

namespace Stmt

/-- A condition between parentheses. -/
def conditionLexemes (c : Expr) (rest : List Lexeme) : List Lexeme :=
  .symbol .leftParen :: (c.written16 ++ .symbol .rightParen :: rest)

mutual

def lexemes : Stmt → List Lexeme
  | decl d => d.lexemes
  | assign x e => .name x :: .symbol .assign :: (e.written16 ++ [.symbol .semicolon])
  | assignIndex a i e => .name a :: .symbol .leftBracket :: (i.written16 ++
      .symbol .rightBracket :: .symbol .assign :: (e.written16 ++ [.symbol .semicolon]))
  | assignDeref p e =>
    .symbol .star :: (p.written16 ++ .symbol .assign :: (e.written16 ++ [.symbol .semicolon]))
  | ret none => [.keyword .returnKw, .symbol .semicolon]
  | ret (some e) => .keyword .returnKw :: (e.written16 ++ [.symbol .semicolon])
  | ifThen c s => .keyword .ifKw :: conditionLexemes c (lexemes s)
  | ifElse c s t =>
    .keyword .ifKw :: conditionLexemes c (lexemes s ++ .keyword .elseKw :: lexemes t)
  | whileLoop c s => .keyword .whileKw :: conditionLexemes c (lexemes s)
  | doWhile s c =>
    .keyword .doKw :: (lexemes s ++ .keyword .whileKw :: conditionLexemes c [.symbol .semicolon])
  | forLoop init c step s =>
    .keyword .forKw :: .symbol .leftParen :: ((init.map ForInit.lexemes).getD [] ++
      .symbol .semicolon :: ((c.map Expr.written16).getD [] ++
        .symbol .semicolon ::
        ((step.map ForStep.lexemes).getD [] ++ .symbol .rightParen :: lexemes s)))
  | block ss => .symbol .leftBrace :: (lexemesAll ss ++ [.symbol .rightBrace])
  | call e => e.written16 ++ [.symbol .semicolon]
  | increment x true => [.symbol .plusPlus, .name x, .symbol .semicolon]
  | increment x false => [.name x, .symbol .plusPlus, .symbol .semicolon]
  | decrement x true => [.symbol .minusMinus, .name x, .symbol .semicolon]
  | decrement x false => [.name x, .symbol .minusMinus, .symbol .semicolon]
  | breakLoop => [.keyword .breakKw, .symbol .semicolon]
  | continueLoop => [.keyword .continueKw, .symbol .semicolon]
  | asm text => [.keyword .asm, Lexeme.asmBlock text, .symbol .semicolon]
  | hole => []

def lexemesAll : List Stmt → List Lexeme
  | [] => []
  | s :: ss => lexemes s ++ lexemesAll ss

end

theorem lexemesAll_eq (ss : List Stmt) : lexemesAll ss = ss.flatMap lexemes := by
  induction ss with
  | nil => rfl
  | cons s ss ih => rw [lexemesAll, List.flatMap_cons, ih]

end Stmt

/-! ### Functions and programs -/

/-- Names with commas between them. -/
def nameLexemes : List String → List Lexeme
  | [] => []
  | x :: xs => .name x :: xs.flatMap fun y => [.symbol .comma, .name y]

def Func.lexemes (f : Func) : List Lexeme :=
  (if f.interrupt then [.keyword .interrupt] else []) ++
    .keyword .function :: .name f.name :: .symbol .leftParen :: (nameLexemes f.params ++
      .symbol .rightParen :: .symbol .leftBrace ::
      (Stmt.lexemesAll f.body ++ [.symbol .rightBrace]))

/-- Globals first, then functions. -/
def Program.lexemes (p : Program) : List Lexeme :=
  p.globals.flatMap Decl.lexemes ++ p.functions.flatMap Func.lexemes

/-! ### Trees that are read back -/

/-- An expression with a symbol for every operator and nothing missing. -/
def Expr.Readable (e : Expr) : Prop := e.Writable (fun _ => True) fun _ => True

/-- An expression whose text starts with a call: its leftmost operand is one, and no operand on the
way there is enclosed. -/
def Expr.startsCall : Expr → Bool
  | call _ _ => true
  | binary op l _ => op.level ≤ l.level && startsCall l
  | _ => false

theorem Expr.lexemes_of_startsCall (spell : Nat → String) {e : Expr} (h : e.startsCall = true) :
    ∃ f ls, e.lexemes spell = .name f :: .symbol .leftParen :: ls := by
  induction e with
  | call f args _ =>
    rw [lexemes]
    exact ⟨f, _, rfl⟩
  | binary op l r ihl _ =>
    rw [startsCall, Bool.and_eq_true, decide_eq_true_eq] at h
    obtain ⟨f, ls, hls⟩ := ihl h.2
    rw [lexemes, enclose, if_neg (Nat.not_lt.mpr h.1), hls]
    exact ⟨f, _, rfl⟩
  | literal n | name x | index a i _ | addressOf e _ | deref e _ | unary op e _
  | foreignUnary op e _
  | foreignBinary op l r _ _ | hole => contradiction

namespace Decl

/-- The register of a variable is the one that its name stands for. -/
def Readable : Decl → Prop
  | var d =>
    (∀ e ∈ d.init, e.Readable) ∧
      ∀ r ∈ d.register, ∀ line c, Parse.registerOf d.name line c = (.ok r, c)
  | array d => d.size.Readable ∧ ∀ es ∈ d.init, ∀ e ∈ es, e.Readable
  | pointer d => ∀ e ∈ d.init, e.Readable

end Decl

namespace ForInit

/-- A variable of a loop head has no qualifiers. -/
def Readable : ForInit → Prop
  | declare d => (∀ e ∈ d.init, e.Readable) ∧ d.register = none ∧ d.volatile = false
  | assign _ e => e.Readable

end ForInit

namespace ForStep

def Readable : ForStep → Prop
  | assign _ e => e.Readable
  | _ => True

end ForStep

namespace Stmt

/-- A statement whose last part is a branch without an `else`, so that an `else` behind it would
belong to that branch. -/
def endsOpen : Stmt → Bool
  | ifThen _ _ => true
  | ifElse _ _ t => endsOpen t
  | whileLoop _ s => endsOpen s
  | forLoop _ _ _ s => endsOpen s
  | _ => false

mutual

def Readable : Stmt → Prop
  | decl d => d.Readable
  | assign _ e => e.Readable
  | assignIndex _ i e => i.Readable ∧ e.Readable
  | assignDeref p e => p.Readable ∧ e.Readable
  | ret e => ∀ v ∈ e, v.Readable
  | ifThen c s => c.Readable ∧ Readable s
  | ifElse c s t => c.Readable ∧ Readable s ∧ s.endsOpen = false ∧ Readable t
  | whileLoop c s => c.Readable ∧ Readable s
  | doWhile s c => Readable s ∧ c.Readable
  | forLoop init c step s =>
    (∀ i ∈ init, i.Readable) ∧ (∀ e ∈ c, e.Readable) ∧ (∀ st ∈ step, st.Readable) ∧ Readable s
  | block ss => AllReadable ss
  | call e => e.Readable ∧ e.startsCall = true
  | increment _ _ => True
  | decrement _ _ => True
  | breakLoop => True
  | continueLoop => True
  | asm _ => True
  | hole => False

def AllReadable : List Stmt → Prop
  | [] => True
  | s :: ss => Readable s ∧ AllReadable ss

end

theorem AllReadable.mem {ss : List Stmt} (h : AllReadable ss) : ∀ s ∈ ss, s.Readable := by
  induction ss with
  | nil => exact List.forall_mem_nil _
  | cons s ss ih =>
    rw [AllReadable] at h
    exact List.forall_mem_cons.mpr ⟨h.1, ih h.2⟩

theorem allReadable_of_mem {ss : List Stmt} (h : ∀ s ∈ ss, s.Readable) : AllReadable ss := by
  induction ss with
  | nil => rw [AllReadable]; trivial
  | cons s ss ih =>
    obtain ⟨hs, hss⟩ := List.forall_mem_cons.mp h
    rw [AllReadable]
    exact ⟨hs, ih hss⟩

end Stmt

/-- An interrupt handler has no parameters. -/
structure Func.Readable (f : Func) : Prop where
  body : Stmt.AllReadable f.body
  params : f.interrupt = true → f.params = []

structure Program.Readable (p : Program) : Prop where
  globals : ∀ d ∈ p.globals, d.Readable
  functions : ∀ f ∈ p.functions, f.Readable
  main : p.hasMain = true

/-! ### How texts start -/

/-- The keywords that a declaration starts with. -/
def declaring : List Keyword := [.uint32, .int32, .register, .volatile]

theorem Decl.lexemes_eq_cons (d : Decl) : ∃ k ∈ declaring, ∃ ls, d.lexemes = .keyword k :: ls := by
  have hqualified (r v : Bool) {k : Keyword} (hk : k ∈ declaring) (ls : List Lexeme) :
      ∃ j ∈ declaring, ∃ ms, qualifierLexemes r v ++ .keyword k :: ls = .keyword j :: ms := by
    cases r <;> cases v
    · exact ⟨k, hk, ls, rfl⟩
    all_goals exact ⟨_, by decide, _, rfl⟩
  cases d with
  | var d => exact hqualified _ _ (by cases d.type <;> decide) _
  | array d | pointer d => exact hqualified _ _ (by decide) _

/-- Lexemes that start a statement: neither what ends a block nor what goes on with a branch. -/
def Stmt.Begins (ls : List Lexeme) : Prop :=
  ∃ l rest, ls = l :: rest ∧ l.kind ≠ .symbol .rightBrace ∧ l.kind ≠ .keyword .elseKw

theorem Stmt.Begins.ne_nil {ls : List Lexeme} (h : Stmt.Begins ls) : ls ≠ [] := by
  obtain ⟨l, rest, rfl, -⟩ := h
  exact List.cons_ne_nil l rest

theorem Stmt.begins_lexemes {s : Stmt} (hs : s.Readable) : Stmt.Begins s.lexemes := by
  cases s with
  | decl d =>
    obtain ⟨k, hk, ls, hls⟩ := d.lexemes_eq_cons
    rw [Stmt.lexemes, hls]
    refine ⟨_, _, rfl, by simp, ?_⟩
    rintro h
    rw [Kind.keyword.inj h] at hk
    exact absurd hk (by decide)
  | call e =>
    rw [Stmt.Readable] at hs
    obtain ⟨g, ls, hls⟩ := Expr.lexemes_of_startsCall Text.hexText hs.2
    rw [Stmt.lexemes, Expr.written16, hls]
    exact ⟨_, _, rfl, by simp, by simp⟩
  | increment x before | decrement x before =>
    cases before <;> (rw [Stmt.lexemes]; exact ⟨_, _, rfl, by simp, by simp⟩)
  | ret e => cases e <;> (rw [Stmt.lexemes]; exact ⟨_, _, rfl, by simp, by simp⟩)
  | hole =>
    rw [Stmt.Readable] at hs
    exact hs.elim
  | assign x e | assignIndex a i e | assignDeref p e | ifThen c s | ifElse c s t | whileLoop c s
  | doWhile s c
  | forLoop init c step s | block ss | breakLoop | continueLoop | asm text =>
    rw [Stmt.lexemes]
    exact ⟨_, _, rfl, by simp, by simp⟩

end WordC
