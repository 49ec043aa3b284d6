import WordC.Proofs.Lexemes
import WordC.Proofs.Trees

/-!
# Writing expressions

The lexemes of an expression, with parentheses only where they are needed. An expression stands in a
context that binds with some strength; it is enclosed when it binds weaker itself. Binary operators
bind with the strengths 0 to 9, signs in front with 10, and everything else holds together by
itself. The left operand of an operator stands in a context as strong as the operator and the right
operand in a stronger one, since operators of one strength group to the left.
-/

namespace WordC

/-- How strongly an operator binds. -/
def BinOp.level : BinOp → Nat
  | logicalOr => 0
  | logicalAnd => 1
  | bitOr => 2
  | bitXor => 3
  | bitAnd => 4
  | equal | notEqual => 5
  | less | lessEqual | greater | greaterEqual => 6
  | shiftLeft | shiftRight => 7
  | add | sub => 8
  | mul | div | mod => 9

theorem BinOp.level_lt (op : BinOp) : op.level < 10 := by cases op <;> decide

/-- The symbol of a sign. The complement has none. -/
def UnaryOp.symbol? : UnaryOp → Option Symbol
  | logicalNot => some .bang
  | negate => some .minus
  | complement => none

namespace Expr

def level : Expr → Nat
  | binary op _ _ => op.level
  | unary _ _ | addressOf _ | deref _ => 10
  | _ => 11

/-- Lexemes between parentheses if asked for. -/
def enclose (needed : Prop) [Decidable needed] (ls : List Lexeme) : List Lexeme :=
  if needed then Lexeme.symbol .leftParen :: ls ++ [Lexeme.symbol .rightParen] else ls

mutual

/-- The lexemes of an expression, its literals spelled by `spell`. -/
def lexemes (spell : Nat → String) : Expr → List Lexeme
  | literal n => [Lexeme.number (spell n)]
  | name x => [Lexeme.name x]
  | call f args =>
    Lexeme.name f :: Lexeme.symbol .leftParen :: argLexemes spell args ++
      [Lexeme.symbol .rightParen]
  | index a i =>
    Lexeme.name a :: Lexeme.symbol .leftBracket :: lexemes spell i ++ [Lexeme.symbol .rightBracket]
  | addressOf e => Lexeme.symbol .amp :: enclose (e.level < 10) (lexemes spell e)
  | deref e => Lexeme.symbol .star :: enclose (e.level < 10) (lexemes spell e)
  | unary op e => op.symbol?.toList.map Lexeme.symbol ++ enclose (e.level < 10) (lexemes spell e)
  | binary op l r =>
    enclose (l.level < op.level) (lexemes spell l) ++
      Lexeme.symbol op.symbol :: enclose (r.level < op.level + 1) (lexemes spell r)
  | foreignUnary _ _ | foreignBinary _ _ _ | hole => []

/-- Arguments with commas between them. -/
def argLexemes (spell : Nat → String) : List Expr → List Lexeme
  | [] => []
  | [e] => lexemes spell e
  | e :: es => lexemes spell e ++ Lexeme.symbol .comma :: argLexemes spell es

end

/-- The lexemes of an expression in a context that binds with strength `k`. -/
def lexemesIn (spell : Nat → String) (k : Nat) (e : Expr) : List Lexeme :=
  enclose (e.level < k) (e.lexemes spell)

variable {k : Nat} {e : Expr} {named : String → Prop} {number : Nat → Prop}

theorem lexemesIn_of_lt (spell : Nat → String) (h : e.level < k) : e.lexemesIn spell k =
    Lexeme.symbol .leftParen :: e.lexemes spell ++ [Lexeme.symbol .rightParen] := if_pos h

theorem lexemesIn_of_le (spell : Nat → String) (h : k ≤ e.level) :
    e.lexemesIn spell k = e.lexemes spell := if_neg (Nat.not_lt_of_le h)

/-- The strength of a context matters only where the expression is of just that strength. -/
theorem lexemesIn_succ (spell : Nat → String) (h : e.level ≠ k) :
    e.lexemesIn spell (k + 1) = e.lexemesIn spell k := by
  by_cases hk : e.level < k
  · rw [lexemesIn_of_lt spell hk, lexemesIn_of_lt spell (Nat.lt_succ_of_lt hk)]
  · have hle : k + 1 ≤ e.level := by omega
    rw [lexemesIn_of_le spell hle, lexemesIn_of_le spell (Nat.le_of_succ_le hle)]

/-! ### What can be written -/

mutual

/-- The expressions that have a text: names and numbers are admitted ones, every operator has a
symbol, nothing is missing. -/
def Writable (named : String → Prop) (number : Nat → Prop) : Expr → Prop
  | literal n => number n
  | name x => named x
  | call f args => named f ∧ AllWritable named number args
  | index a i => named a ∧ Writable named number i
  | addressOf e | deref e => Writable named number e
  | unary op e => op ≠ .complement ∧ Writable named number e
  | binary _ l r => Writable named number l ∧ Writable named number r
  | foreignUnary _ _ | foreignBinary _ _ _ | hole => False

def AllWritable (named : String → Prop) (number : Nat → Prop) : List Expr → Prop
  | [] => True
  | e :: es => Writable named number e ∧ AllWritable named number es

end

theorem AllWritable.mem {es : List Expr}
    (h : AllWritable named number es) : ∀ e ∈ es, e.Writable named number := by
  induction es with
  | nil => exact List.forall_mem_nil _
  | cons e es ih =>
    rw [AllWritable] at h
    exact List.forall_mem_cons.mpr ⟨h.1, ih h.2⟩

theorem allWritable_of_mem {es : List Expr}
    (h : ∀ e ∈ es, e.Writable named number) : AllWritable named number es := by
  induction es with
  | nil => rw [AllWritable]; trivial
  | cons e es ih =>
    obtain ⟨he, hes⟩ := List.forall_mem_cons.mp h
    rw [AllWritable]
    exact ⟨he, ih hes⟩

theorem argLexemes_cons (spell : Nat → String) (e : Expr) (es : List Expr) :
    argLexemes spell (e :: es) = e.lexemes spell ++ es.flatMap
    fun a => Lexeme.symbol .comma :: a.lexemes spell := by
  induction es generalizing e with
  | nil => rw [argLexemes, List.flatMap_nil, List.append_nil]
  | cons a es ih =>
    rw [argLexemes, ih a, List.flatMap_cons, List.cons_append]
    exact fun h => nomatch h

/-- What stands where an expression could be and is left out. -/
def closingKinds : List Kind := [.symbol .rightParen, .symbol .rightBrace, .symbol .semicolon]

/-- Lexemes that do not start with a closing parenthesis, brace or semicolon, and do start. -/
def Opens (ls : List Lexeme) : Prop := ∃ l rest, ls = l :: rest ∧ l.kind ∉ closingKinds

theorem Opens.append {ls : List Lexeme} (h : Opens ls) (more : List Lexeme) :
    Opens (ls ++ more) := by
  obtain ⟨l, rest, rfl, hl⟩ := h
  exact ⟨l, rest ++ more, rfl, hl⟩

theorem Opens.enclose {needed : Prop} [Decidable needed] {ls : List Lexeme} (h : Opens ls) :
    Opens (enclose needed ls) := by
  unfold Expr.enclose
  split
  · exact ⟨_, _, rfl, by decide⟩
  · exact h

theorem opens_lexemes (spell : Nat → String) (e : Expr) :
    e.Writable named number → Opens (e.lexemes spell) := by
  induction e with
  | literal n | name x | call f args _ | index a i _ | addressOf e _ | deref e _ =>
    intro _
    rw [lexemes]
    exact ⟨_, _, rfl, by simp [closingKinds, Lexeme.symbol, Lexeme.name, Lexeme.number]⟩
  | unary op e _ =>
    intro h
    rw [Writable] at h
    rw [lexemes]
    cases op with
    | complement => exact absurd rfl h.1
    | logicalNot | negate => exact ⟨_, _, rfl, by decide⟩
  | binary op l r ihl _ =>
    intro h
    rw [Writable] at h
    rw [lexemes]
    exact (ihl h.1).enclose.append _
  | foreignUnary op e _ | foreignBinary op l r _ _ | hole =>
    intro h
    rw [Writable] at h
    exact h.elim

/-- The lexemes that writing uses: symbols, admitted names and spelled admitted numbers. -/
def Admits (named : String → Prop) (number : Nat → Prop) (spell : Nat → String)
    (l : Lexeme) : Prop :=
  (∃ s, l = Lexeme.symbol s) ∨ (∃ x, named x ∧ l = Lexeme.name x) ∨
    ∃ n, number n ∧ l = Lexeme.number (spell n)

section Admits

variable {named : String → Prop} {number : Nat → Prop} {spell : Nat → String}

theorem admits_symbol (s : Symbol) : Admits named number spell (Lexeme.symbol s) := .inl ⟨s, rfl⟩

theorem admits_enclose {needed : Prop} [Decidable needed] {ls : List Lexeme}
    (h : ∀ l ∈ ls, Admits named number spell l) :
    ∀ l ∈ enclose needed ls, Admits named number spell l := by
  unfold enclose
  split
  · rw [List.forall_mem_append, List.forall_mem_cons, List.forall_mem_singleton]
    exact ⟨⟨admits_symbol _, h⟩, admits_symbol _⟩
  · exact h

theorem admits_argLexemes {es : List Expr}
    (h : ∀ e ∈ es, ∀ l ∈ e.lexemes spell, Admits named number spell l) :
    ∀ l ∈ argLexemes spell es, Admits named number spell l := by
  induction es with
  | nil => exact List.forall_mem_nil _
  | cons e es ih =>
    obtain ⟨he, hes⟩ := List.forall_mem_cons.mp h
    cases es with
    | nil => exact he
    | cons e' es =>
      rw [argLexemes, List.forall_mem_append, List.forall_mem_cons]
      · exact ⟨he, admits_symbol _, ih hes⟩
      · exact fun h => nomatch h

theorem admits_lexemes (e : Expr) :
    e.Writable named number → ∀ l ∈ e.lexemes spell, Admits named number spell l := by
  induction e with
  | literal n =>
    intro hn
    rw [Writable] at hn
    rw [lexemes, List.forall_mem_singleton]
    exact .inr (.inr ⟨n, hn, rfl⟩)
  | name x =>
    intro hx
    rw [Writable] at hx
    rw [lexemes, List.forall_mem_singleton]
    exact .inr (.inl ⟨x, hx, rfl⟩)
  | call f args ih =>
    intro h
    rw [Writable] at h
    rw [lexemes, List.forall_mem_append, List.forall_mem_cons, List.forall_mem_cons,
      List.forall_mem_singleton]
    have hargs := admits_argLexemes fun a ha => ih a ha (h.2.mem a ha)
    exact ⟨⟨.inr (.inl ⟨f, h.1, rfl⟩), admits_symbol _, hargs⟩, admits_symbol _⟩
  | index a i ih =>
    intro h
    rw [Writable] at h
    rw [lexemes, List.forall_mem_append, List.forall_mem_cons, List.forall_mem_cons,
      List.forall_mem_singleton]
    exact ⟨⟨.inr (.inl ⟨a, h.1, rfl⟩), admits_symbol _, ih h.2⟩, admits_symbol _⟩
  | addressOf e ih | deref e ih =>
    intro h
    rw [Writable] at h
    rw [lexemes, List.forall_mem_cons]
    exact ⟨admits_symbol _, admits_enclose (ih h)⟩
  | unary op e ih =>
    intro h
    rw [Writable] at h
    rw [lexemes, List.forall_mem_append]
    refine ⟨?_, admits_enclose (ih h.2)⟩
    intro l hl
    obtain ⟨s, _, rfl⟩ := List.mem_map.mp hl
    exact admits_symbol s
  | binary op l r ihl ihr =>
    intro h
    rw [Writable] at h
    rw [lexemes, List.forall_mem_append, List.forall_mem_cons]
    exact ⟨admits_enclose (ihl h.1), admits_symbol _, admits_enclose (ihr h.2)⟩
  | foreignUnary op e _ | foreignBinary op l r _ _ | hole =>
    intro h
    rw [Writable] at h
    exact h.elim

end Admits

end Expr

end WordC
