import WordC.Proofs.ExprPrinting
import WordC.Proofs.Reading
import WordC.Stmt.Parse

/-!
# Written expressions are read back

A reader of one strength reads what was written for a context of that strength, and stops in front
of a token that neither goes on with an operator at least as strong nor indexes or calls. The reader
of a strength gathers operators from the left while the tree of an expression grows to the left as
well, so the proof does not read a left operand and then stop: it follows the loop of the reader,
and says that behind the left operand the loop stands where it would stand with that operand already
read.

The bound of the readers is counted in tokens: a reader that may go one deeper than there are tokens
never reaches it.
-/

namespace WordC.Parse

open Step

/-! ### Operators of one strength -/

/-- The operators of strength `k`. -/
def opsAt (k : Nat) : List BinOp := BinOp.levels.getD k []

variable {op : BinOp} {t : Token} {rest : List Token} {node : Expr → Expr} {n : Nat}
  {args : List Expr}

theorem level_of_mem_opsAt {k : Nat} (h : op ∈ opsAt k) : op.level = k := by
  have hall : ∀ j : Fin 10, ∀ o ∈ opsAt j, o.level = j := by decide
  by_cases hk : k < 10
  · exact hall ⟨k, hk⟩ op h
  · have hnil : opsAt k = [] := by
      rw [opsAt, List.getD_eq_getElem?_getD, List.getElem?_eq_none (Nat.le_of_not_lt hk)]
      rfl
    rw [hnil] at h
    exact absurd h List.not_mem_nil

/-- A token kind that ends an expression read with strength `k`. -/
structure Closes (k : Nat) (kind : Kind) : Prop where
  bracket : kind ≠ .symbol .leftBracket
  paren : kind ≠ .symbol .leftParen
  operator : ∀ op : BinOp, k ≤ op.level → kind ≠ .symbol op.symbol

theorem Closes.mono {j k : Nat} {kind : Kind} (h : Closes j kind) (hjk : j ≤ k) : Closes k kind :=
  ⟨h.bracket, h.paren, fun op hop => h.operator op (Nat.le_trans hjk hop)⟩

theorem symbol_injective {o p : BinOp} (h : o.symbol = p.symbol) : o = p := by
  revert h
  cases o <;> cases p <;> decide

/-- An operator ends an expression that is read with more than its strength. -/
theorem closes_operator (op : BinOp) : Closes (op.level + 1) (.symbol op.symbol) where
  bracket := by cases op <;> decide
  paren := by cases op <;> decide
  operator := by
    intro o ho h
    have hop : op = o := symbol_injective (Kind.symbol.inj h)
    subst hop
    exact absurd ho (Nat.not_succ_le_self _)

theorem levelOp?_symbol (h : t.kind = .symbol op.symbol) :
    levelOp? (opsAt op.level) t = some op := by
  simp only [levelOp?, h]
  cases op <;> rfl

theorem levelOp?_closes {k : Nat} (h : Closes k t.kind) : levelOp? (opsAt k) t = none := by
  unfold levelOp?
  rw [List.find?_eq_none]
  intro op hop hkind
  exact h.operator op (Nat.le_of_eq (level_of_mem_opsAt hop).symm) (of_decide_eq_true hkind)

theorem chain_operator (h : t.kind = .symbol op.symbol) (operand : Parse Expr) (n : Nat)
    (left : Expr) (passed ts : List Token) :
    chain (opsAt op.level) operand (n + 1) left ⟨passed, t :: ts⟩ =
      (do let right ← operand; chain (opsAt op.level) operand n (.binary op left right))
      ⟨t :: passed, ts⟩ := by
  rw [chain, bind_ok (current?_apply _)]
  simp only [List.head?_cons, Option.bind_some, levelOp?_symbol h]
  rw [bind_ok (advance_cons t passed ts)]

theorem chain_closes {k : Nat} (h : ∀ t ∈ rest.head?, Closes k t.kind) (operand : Parse Expr)
    (n : Nat) (left : Expr) (passed : List Token) :
    chain (opsAt k) operand (n + 1) left ⟨passed, rest⟩ = (.ok left, ⟨passed, rest⟩) := by
  rw [chain, bind_ok (current?_apply _)]
  cases rest with
  | nil => rfl
  | cons t ts =>
    have ht : levelOp? (opsAt k) t = none := levelOp?_closes (h t rfl)
    simp only [List.head?_cons, Option.bind_some, ht]
    rfl

/-! ### Readers of each strength -/

/-- A primary with its index, inside which expressions nest at most `f` deep. -/
def postfixAt (f : Nat) : Parse Expr := do indexed (exprAt f) (f + 1) (← primary (f + 1) (exprAt f))

/-- An expression of strength `k` or more. -/
def levelAt (f k : Nat) : Parse Expr :=
  binary (f + 1) (signed (postfixAt f) (f + 1)) (BinOp.levels.drop k)

theorem exprAt_succ (f : Nat) : exprAt (f + 1) = levelAt f 0 := rfl

theorem levelAt_ten (f : Nat) : levelAt f 10 = signed (postfixAt f) (f + 1) := rfl

theorem levelAt_of_lt (f : Nat) {k : Nat} (hk : k < 10) :
    levelAt f k = (do
      let left ← levelAt f (k + 1)
      chain (opsAt k) (levelAt f (k + 1)) (f + 1) left) := by
  have hlen : k < BinOp.levels.length := hk
  have hops : opsAt k = BinOp.levels[k] := by
    rw [opsAt, List.getD_eq_getElem?_getD, List.getElem?_eq_getElem hlen]
    rfl
  rw [levelAt, List.drop_eq_getElem_cons hlen, binary, ← hops]
  rfl

section

variable (spell : Nat → String)

/-- The reader of strength `k` reads `e` as it is written for a context of that strength. -/
def ReadsAt (f k : Nat) (e : Expr) : Prop :=
  ∀ passed ts rest, ts.map Token.lexeme = e.lexemesIn spell k → ts.length ≤ f →
    (∀ t ∈ rest.head?, Closes k t.kind) →
      levelAt f k ⟨passed, ts ++ rest⟩ = (.ok e, ⟨ts.reverse ++ passed, rest⟩)

/-- The loop of the reader of strength `k` stands behind `e` with `e` as its left operand, and has
used up no more rounds than there were tokens. -/
def ReadsOn (f k : Nat) (e : Expr) : Prop :=
  ∀ passed ts rest, ts.map Token.lexeme = e.lexemesIn spell k → ts.length ≤ f →
    (∀ t ∈ rest.head?, Closes (k + 1) t.kind) →
      ∃ n, f + 1 ≤ n + ts.length ∧ levelAt f k ⟨passed, ts ++ rest⟩ =
        chain (opsAt k) (levelAt f (k + 1)) n e ⟨ts.reverse ++ passed, rest⟩

/-- Signs and a primary are read, as they are written behind a sign. -/
def ReadsOperand (f : Nat) (e : Expr) : Prop :=
  ∀ n passed ts rest, ts.map Token.lexeme = e.lexemesIn spell 10 → ts.length ≤ f → ts.length ≤ n →
    (∀ t ∈ rest.head?, Closes 10 t.kind) →
      signed (postfixAt f) (n + 1) ⟨passed, ts ++ rest⟩ = (.ok e, ⟨ts.reverse ++ passed, rest⟩)

end

variable {spell : Nat → String} {f k : Nat} {e l r : Expr}

theorem ReadsOn.readsAt (h : ReadsOn spell f k e) : ReadsAt spell f k e := by
  intro passed ts rest hts hlen hrest
  obtain ⟨n, hn, hread⟩ := h passed ts rest hts hlen fun t ht => (hrest t ht).mono (Nat.le_succ k)
  obtain ⟨n, rfl⟩ : ∃ n', n = n' + 1 := ⟨n - 1, by omega⟩
  rw [hread, chain_closes hrest]

theorem ReadsAt.readsOn (hk : k < 10) (he : e.level ≠ k) (h : ReadsAt spell f (k + 1) e) :
    ReadsOn spell f k e := by
  intro passed ts rest hts hlen hrest
  rw [← Expr.lexemesIn_succ spell he] at hts
  refine ⟨f + 1, Nat.le_add_right _ _, ?_⟩
  rw [levelAt_of_lt f hk, bind_ok (h passed ts rest hts hlen hrest)]

/-- An operator between its operands: the left one is followed to the operator, one round of the
loop takes the operator, and the right operand is read with more strength. -/
theorem readsOn_binary (hl : ReadsOn spell f op.level l) (hr : ReadsAt spell f (op.level + 1) r) :
    ReadsOn spell f op.level (.binary op l r) := by
  intro passed ts rest hts hlen hrest
  have hlex : (Expr.binary op l r).lexemesIn spell op.level =
      l.lexemesIn spell op.level ++ Lexeme.symbol op.symbol ::
      r.lexemesIn spell (op.level + 1) := by
    rw [Expr.lexemesIn_of_le spell (Nat.le_refl op.level), Expr.lexemes]
    rfl
  rw [hlex] at hts
  obtain ⟨us, vs, rfl, hus, hvs⟩ := List.map_eq_append_iff.mp hts
  obtain ⟨t, ws, rfl, ht, -, hws⟩ := exists_token_of_map_eq_cons hvs
  have hkind : t.kind = .symbol op.symbol := ht
  simp only [List.length_append, List.length_cons] at hlen
  have hfollow : ∀ u ∈ (t :: ws ++ rest).head?, Closes (op.level + 1) u.kind := by
    intro u hu
    obtain rfl := Option.some.inj hu
    rw [hkind]
    exact closes_operator op
  obtain ⟨n, hn, hread⟩ := hl passed us (t :: ws ++ rest) hus (by omega) hfollow
  obtain ⟨n, rfl⟩ : ∃ n', n = n' + 1 := ⟨n - 1, by omega⟩
  refine ⟨n, by simp only [List.length_append, List.length_cons]; omega, ?_⟩
  rw [List.append_assoc, hread, List.cons_append, chain_operator hkind,
    bind_ok (hr (t :: (us.reverse ++ passed)) ws rest hws (by omega) hrest)]
  simp

/-! ### Signs -/

theorem signed_sign (h : signOf? t.kind = some node) (operand : Parse Expr) (n : Nat)
    (passed ts : List Token) : signed operand (n + 1) ⟨passed, t :: ts⟩ =
    (do return node (← signed operand n)) ⟨t :: passed, ts⟩ := by
  rw [signed, bind_ok (kind?_apply _)]
  simp only [List.head?_cons, Option.map_some, Option.bind_some, h]
  rw [bind_ok (advance_cons t passed ts)]

theorem signed_of_none (h : signOf? t.kind = none) (operand : Parse Expr)
    (n : Nat) (passed ts : List Token) :
    signed operand (n + 1) ⟨passed, t :: ts⟩ = operand ⟨passed, t :: ts⟩ := by
  rw [signed, bind_ok (kind?_apply _)]
  simp only [List.head?_cons, Option.map_some, Option.bind_some, h]

/-- A sign in front of an operand. -/
theorem readsOperand_sign {s : Symbol} (hs : signOf? (.symbol s) = some node)
    (hlex : (node e).lexemesIn spell 10 = Lexeme.symbol s :: e.lexemesIn spell 10)
    (h : ReadsOperand spell f e) : ReadsOperand spell f (node e) := by
  intro n passed ts rest hts hf hn hrest
  rw [hlex] at hts
  obtain ⟨t, us, rfl, ht, -, hus⟩ := exists_token_of_map_eq_cons hts
  have hkind : t.kind = .symbol s := ht
  rw [List.length_cons] at hf hn
  obtain ⟨n, rfl⟩ : ∃ n', n = n' + 1 := ⟨n - 1, by omega⟩
  rw [List.cons_append, signed_sign (by rw [hkind]; exact hs),
    bind_ok (h n (t :: passed) us rest hus (by omega) (by omega) hrest), pure_apply]
  simp

/-! ### Primaries -/

/-- An operand that does not start with a sign is a primary with its index. -/
theorem readsOperand_of_head {first : Lexeme} {ls : List Lexeme}
    (hlex : e.lexemesIn spell 10 = first :: ls) (hfirst : signOf? first.kind = none)
    (h : ∀ passed t us rest, t.kind = first.kind → t.text = first.text →
      us.map Token.lexeme = ls → us.length < f →
      (∀ u ∈ rest.head?, Closes 10 u.kind) →
        postfixAt f ⟨passed, t :: (us ++ rest)⟩ = (.ok e, ⟨us.reverse ++ t :: passed, rest⟩)) :
    ReadsOperand spell f e := by
  intro n passed ts rest hts hf _ hrest
  rw [hlex] at hts
  obtain ⟨t, us, rfl, hkind, htext, hus⟩ := exists_token_of_map_eq_cons hts
  have hnone : signOf? t.kind = none := by rw [hkind]; exact hfirst
  rw [List.cons_append, signed_of_none hnone, h passed t us rest hkind htext hus hf hrest]
  simp

theorem indexed_closes (h : ∀ t ∈ rest.head?, Closes 10 t.kind) (expr : Parse Expr) (n : Nat)
    (base : Expr) (passed : List Token) :
    indexed expr (n + 1) base ⟨passed, rest⟩ = (.ok base, ⟨passed, rest⟩) := by
  rw [indexed, bind_ok (accept_of_ne fun t ht => (h t ht).bracket)]
  rfl

theorem primary_literal (ht : t.kind = .literal) (hn : Text.literal? t.text = some n) (g : Nat)
    (expr : Parse Expr) (passed ts : List Token) :
    primary g expr ⟨passed, t :: ts⟩ = (.ok (.literal n), ⟨t :: passed, ts⟩) := by
  rw [primary, bind_ok (current?_apply _)]
  simp only [List.head?_cons, ht]
  rw [literal, bind_ok (advance_cons t passed ts)]
  simp only [hn, pure_apply]

theorem primary_name (ht : t.kind = .identifier) (h : ∀ u ∈ rest.head?, u.kind ≠ .symbol .leftParen)
    (g : Nat) (expr : Parse Expr) (passed : List Token) :
    primary g expr ⟨passed, t :: rest⟩ = (.ok (.name t.text), ⟨t :: passed, rest⟩) := by
  rw [primary, bind_ok (current?_apply _)]
  simp only [List.head?_cons, ht]
  rw [nameOrCall, bind_ok (advance_cons t passed rest), bind_ok (accept_of_ne h)]
  rfl

theorem readsOperand_literal (h : Text.literal? (spell n) = some n) :
    ReadsOperand spell f (.literal n) := by
  have hlex : (Expr.literal n).lexemesIn spell 10 = [Lexeme.number (spell n)] := by
    rw [Expr.lexemesIn_of_le spell (show 10 ≤ 11 by omega), Expr.lexemes]
  refine readsOperand_of_head hlex rfl ?_
  intro passed t us rest ht htext hus _ hrest
  obtain rfl := List.map_eq_nil_iff.mp hus
  have hn : Text.literal? t.text = some n := by rw [htext]; exact h
  rw [postfixAt, List.nil_append, bind_ok (primary_literal ht hn _ _ _ _), indexed_closes hrest]
  rfl

theorem readsOperand_name (x : String) : ReadsOperand spell f (.name x) := by
  have hlex : (Expr.name x).lexemesIn spell 10 = [Lexeme.name x] := by
    rw [Expr.lexemesIn_of_le spell (show 10 ≤ 11 by omega), Expr.lexemes]
  refine readsOperand_of_head hlex rfl ?_
  intro passed t us rest ht htext hus _ hrest
  obtain rfl := List.map_eq_nil_iff.mp hus
  have hx : t.text = x := htext
  rw [postfixAt, List.nil_append, bind_ok (primary_name ht (fun u hu => (hrest u hu).paren) _ _ _),
    hx, indexed_closes hrest]
  rfl

/-! ### Whole expressions inside brackets -/

/-- A whole expression, as it is written where nothing binds it. -/
def ReadsWhole (spell : Nat → String) (e : Expr) : Prop :=
  ∀ f passed ts rest, ts.map Token.lexeme = e.lexemes spell → ts.length < f →
    (∀ t ∈ rest.head?, Closes 0 t.kind) →
      exprAt f ⟨passed, ts ++ rest⟩ = (.ok e, ⟨ts.reverse ++ passed, rest⟩)

theorem readsWhole_of_readsAt (h : ∀ f, ReadsAt spell f 0 e) : ReadsWhole spell e := by
  intro f passed ts rest hts hlen hrest
  obtain ⟨f, rfl⟩ : ∃ f', f = f' + 1 := ⟨f - 1, by omega⟩
  rw [exprAt_succ]
  refine h f passed ts rest ?_ (by omega) hrest
  rw [Expr.lexemesIn_of_le spell (Nat.zero_le _)]
  exact hts

/-- What stands behind a whole expression. -/
def Divides (s : Symbol) : Prop :=
  s = .rightParen ∨ s = .rightBracket ∨ s = .comma ∨ s = .rightBrace ∨ s = .semicolon ∨ s = .assign

theorem Divides.closes_kind {s : Symbol} (hs : Divides s) (k : Nat) : Closes k (.symbol s) := by
  refine ⟨?_, ?_, ?_⟩
  · rcases hs with rfl | rfl | rfl | rfl | rfl | rfl <;> decide
  · rcases hs with rfl | rfl | rfl | rfl | rfl | rfl <;> decide
  · intro op _
    rcases hs with rfl | rfl | rfl | rfl | rfl | rfl <;> cases op <;> decide

theorem Divides.closes {s : Symbol} (hs : Divides s) (ht : t.kind = .symbol s) (k : Nat)
    (ts : List Token) : ∀ u ∈ (t :: ts).head?, Closes k u.kind := by
  intro u hu
  obtain rfl := Option.some.inj hu
  rw [ht]
  exact hs.closes_kind k

/-- A whole expression and then the symbol that ends it. -/
theorem ReadsWhole.ended (h : ReadsWhole spell e) {s : Symbol} (hs : Divides s) {us : List Token}
    (hus : us.map Token.lexeme = e.lexemes spell ++ [Lexeme.symbol s]) (hlen : us.length ≤ f)
    (passed rest : List Token) : ∃ c, exprAt f ⟨passed, us ++ rest⟩ = (.ok e, c) ∧
    symbol s c = (.ok (), ⟨us.reverse ++ passed, rest⟩) := by
  obtain ⟨vs, ws, rfl, hvs, hws⟩ := List.map_eq_append_iff.mp hus
  obtain ⟨t, zs, rfl, ht, -, hzs⟩ := exists_token_of_map_eq_cons hws
  obtain rfl := List.map_eq_nil_iff.mp hzs
  have hkind : t.kind = .symbol s := ht
  rw [List.length_append, List.length_singleton] at hlen
  rw [List.append_assoc, List.singleton_append]
  refine ⟨_, h f passed vs (t :: rest) hvs (by omega) (hs.closes hkind 0 rest), ?_⟩
  rw [symbol_cons hkind]
  simp

theorem readsOperand_enclosed (he : e.level < 10) (h : ReadsWhole spell e) :
    ReadsOperand spell f e := by
  refine readsOperand_of_head (Expr.lexemesIn_of_lt spell he) rfl ?_
  intro passed t us rest ht _ hus hlen hrest
  have hkind : t.kind = .symbol .leftParen := ht
  obtain ⟨c, hread, hclose⟩ := h.ended (.inl rfl) hus (Nat.le_of_lt hlen) (t :: passed) rest
  have hprimary : primary (f + 1) (exprAt f) ⟨passed, t :: (us ++ rest)⟩ =
      (.ok e, ⟨us.reverse ++ t :: passed, rest⟩) := by
    rw [primary, bind_ok (current?_apply _)]
    simp only [List.head?_cons, hkind]
    rw [bind_ok (advance_cons t passed (us ++ rest)), bind_ok hread, bind_ok hclose, pure_apply]
  rw [postfixAt, bind_ok hprimary, indexed_closes hrest]

theorem readsOperand_index {a : String} {i : Expr} (h : ReadsWhole spell i) :
    ReadsOperand spell f (.index a i) := by
  have hlex : (Expr.index a i).lexemesIn spell 10 =
      Lexeme.name a :: Lexeme.symbol .leftBracket ::
      (i.lexemes spell ++ [Lexeme.symbol .rightBracket]) := by
    rw [Expr.lexemesIn_of_le spell (show 10 ≤ 11 by omega), Expr.lexemes]
    rfl
  refine readsOperand_of_head hlex rfl ?_
  intro passed t us rest ht htext hus hlen hrest
  obtain ⟨b, vs, rfl, hb, -, hvs⟩ := exists_token_of_map_eq_cons hus
  have hbracket : b.kind = .symbol .leftBracket := hb
  have hname : t.text = a := htext
  rw [List.length_cons] at hlen
  have hnext : ∀ u ∈ (b :: (vs ++ rest)).head?, u.kind ≠ .symbol .leftParen := by
    intro u hu
    obtain rfl := Option.some.inj hu
    rw [hbracket]
    decide
  obtain ⟨f, rfl⟩ : ∃ f', f = f' + 1 := ⟨f - 1, by omega⟩
  obtain ⟨c, hread, hclose⟩ :=
    h.ended (.inr (.inl rfl)) hvs (show vs.length ≤ f + 1 by omega) (b :: t :: passed) rest
  rw [postfixAt, List.cons_append, bind_ok (primary_name ht hnext _ _ _), hname, indexed,
    bind_ok (accept_cons hbracket _ _), if_pos rfl, bind_ok hread, bind_ok hclose]
  show indexed (exprAt (f + 1)) (f + 1) (.index a i) _ = _
  rw [indexed_closes hrest]
  simp

/-! ### Arguments -/

/-- A symbol that ends a list of expressions. -/
def EndsList (s : Symbol) : Prop := s = .rightParen ∨ s = .rightBrace

theorem EndsList.divides {s : Symbol} (h : EndsList s) : Divides s := by
  rcases h with rfl | rfl
  · exact .inl rfl
  · exact .inr (.inr (.inr (.inl rfl)))

theorem EndsList.mem_closingKinds {s : Symbol} (h : EndsList s) :
    .symbol s ∈ Expr.closingKinds := by
  rcases h with rfl | rfl <;> decide

variable {s : Symbol}

/-- Behind an argument stands the next comma or, after the last one, the closing symbol. -/
theorem closes_moreArgs (hs : EndsList s) {close : Token} (hclose : close.kind = .symbol s)
    (rest : List Token) {ts : List Token}
    (hts : ts.map Token.lexeme = args.flatMap fun a => Lexeme.symbol .comma :: a.lexemes spell) :
    ∀ u ∈ (ts ++ close :: rest).head?, Closes 0 u.kind := by
  cases args with
  | nil =>
    obtain rfl := List.map_eq_nil_iff.mp hts
    exact hs.divides.closes hclose 0 rest
  | cons a args =>
    rw [List.flatMap_cons, List.cons_append] at hts
    obtain ⟨t, us, rfl, ht, -, -⟩ := exists_token_of_map_eq_cons hts
    exact Divides.closes (.inr (.inr (.inl rfl))) ht 0 _

theorem moreItems_args (hs : EndsList s) (h : ∀ a ∈ args, ReadsWhole spell a) {close : Token}
    (hclose : close.kind = .symbol s) (rest : List Token) :
    ∀ (n : Nat) (done : List Expr) (passed ts : List Token),
      ts.map Token.lexeme = (args.flatMap fun a => Lexeme.symbol .comma :: a.lexemes spell) →
      ts.length < f → ts.length < n →
        moreItems (exprAt f) n done ⟨passed, ts ++ close :: rest⟩ =
          (.ok (done.reverse ++ args), ⟨ts.reverse ++ passed, close :: rest⟩) := by
  induction args with
  | nil =>
    intro n done passed ts hts _ hn
    obtain rfl := List.map_eq_nil_iff.mp hts
    obtain ⟨n, rfl⟩ : ∃ n', n = n' + 1 := ⟨n - 1, by omega⟩
    have hnext : ∀ u ∈ (close :: rest).head?, u.kind ≠ .symbol .comma := by
      intro u hu
      obtain rfl := Option.some.inj hu
      rw [hclose]
      rcases hs with rfl | rfl <;> decide
    rw [List.nil_append, moreItems, bind_ok (accept_of_ne hnext)]
    simp [pure_apply]
  | cons a args ih =>
    intro n done passed ts hts hf hn
    obtain ⟨ha, hargs⟩ := List.forall_mem_cons.mp h
    rw [List.flatMap_cons, List.cons_append] at hts
    obtain ⟨t, us, rfl, ht, -, hus⟩ := exists_token_of_map_eq_cons hts
    obtain ⟨vs, ws, rfl, hvs, hws⟩ := List.map_eq_append_iff.mp hus
    have hcomma : t.kind = .symbol .comma := ht
    simp only [List.length_cons, List.length_append] at hf hn
    obtain ⟨n, rfl⟩ : ∃ n', n = n' + 1 := ⟨n - 1, by omega⟩
    have hread := ha f (t :: passed) vs (ws ++ close :: rest) hvs (by omega)
      (closes_moreArgs hs hclose rest hws)
    rw [List.cons_append, List.append_assoc, moreItems, bind_ok (accept_cons hcomma _ _),
      if_pos rfl, bind_ok hread, ih hargs n (a :: done) _ ws hws (by omega) (by omega)]
    simp

theorem itemsUntil_args (hs : EndsList s) (h : ∀ a ∈ args, ReadsWhole spell a)
    (hopens : ∀ a ∈ args, Expr.Opens (a.lexemes spell)) {us : List Token}
    (hus : us.map Token.lexeme = Expr.argLexemes spell args ++ [Lexeme.symbol s])
    (hlen : us.length ≤ f) (hn : us.length ≤ n) (passed rest : List Token) :
    itemsUntil n (exprAt f) s ⟨passed, us ++ rest⟩ = (.ok args, ⟨us.reverse ++ passed, rest⟩) := by
  obtain ⟨vs, ws, rfl, hvs, hws⟩ := List.map_eq_append_iff.mp hus
  obtain ⟨close, zs, rfl, hc, -, hzs⟩ := exists_token_of_map_eq_cons hws
  obtain rfl := List.map_eq_nil_iff.mp hzs
  have hclose : close.kind = .symbol s := hc
  rw [List.length_append, List.length_singleton] at hlen hn
  rw [List.append_assoc, List.singleton_append, itemsUntil, bind_ok (kind?_apply _)]
  cases args with
  | nil =>
    rw [Expr.argLexemes] at hvs
    obtain rfl := List.map_eq_nil_iff.mp hvs
    simp only [List.nil_append, List.head?_cons, Option.map_some, hclose, if_true]
    rw [bind_ok (pure_apply _ _), bind_ok (symbol_cons hclose _ _), pure_apply]
    simp
  | cons a args =>
    obtain ⟨ha, hargs⟩ := List.forall_mem_cons.mp h
    rw [Expr.argLexemes_cons] at hvs
    obtain ⟨as, bs, rfl, has, hbs⟩ := List.map_eq_append_iff.mp hvs
    obtain ⟨l, ls, hfirst, hl⟩ := hopens a List.mem_cons_self
    obtain ⟨t, as', rfl, ht, -, -⟩ := exists_token_of_map_eq_cons (has.trans hfirst)
    have hkind : t.kind ≠ .symbol s := by
      rw [ht]
      exact fun heq => hl (heq ▸ hs.mem_closingKinds)
    rw [List.length_append] at hlen hn
    have hitem := ha f passed (t :: as') (bs ++ close :: rest) has (by omega)
      (closes_moreArgs hs hclose rest hbs)
    have hmore := moreItems_args hs hargs hclose rest n [a] ((t :: as').reverse ++ passed) bs hbs
      (show bs.length < f by omega) (by omega)
    simp only [List.cons_append, List.append_assoc, List.head?_cons, Option.map_some, hkind,
      if_false] at hitem ⊢
    rw [bind_ok hitem, bind_ok hmore, bind_ok (symbol_cons hclose _ _), pure_apply]
    simp

theorem readsOperand_call {g : String} (h : ∀ a ∈ args, ReadsWhole spell a)
    (hopens : ∀ a ∈ args, Expr.Opens (a.lexemes spell)) : ReadsOperand spell f (.call g args) := by
  have hlex : (Expr.call g args).lexemesIn spell 10 =
      Lexeme.name g :: Lexeme.symbol .leftParen ::
      (Expr.argLexemes spell args ++ [Lexeme.symbol .rightParen]) := by
    rw [Expr.lexemesIn_of_le spell (show 10 ≤ 11 by omega), Expr.lexemes]
    rfl
  refine readsOperand_of_head hlex rfl ?_
  intro passed t us rest ht htext hus hlen hrest
  obtain ⟨b, vs, rfl, hb, -, hvs⟩ := exists_token_of_map_eq_cons hus
  have hkind : t.kind = .identifier := ht
  have hparen : b.kind = .symbol .leftParen := hb
  have hname : t.text = g := htext
  rw [List.length_cons] at hlen
  have hitems := itemsUntil_args (.inl rfl) h hopens hvs (show vs.length ≤ f by omega)
    (show vs.length ≤ f + 1 by omega) (b :: t :: passed) rest
  have hprimary : primary (f + 1) (exprAt f) ⟨passed, t :: b :: (vs ++ rest)⟩ =
      (.ok (.call g args), ⟨vs.reverse ++ b :: t :: passed, rest⟩) := by
    rw [primary, bind_ok (current?_apply _)]
    simp only [List.head?_cons, hkind]
    rw [nameOrCall, bind_ok (advance_cons t passed _), bind_ok (accept_cons hparen _ _), if_pos rfl,
      bind_ok hitems, hname, pure_apply]
  rw [postfixAt, List.cons_append, bind_ok hprimary, indexed_closes hrest]
  simp

/-! ### Every expression at every strength -/

/-- An expression is read back wherever it can stand. -/
structure Reads (spell : Nat → String) (e : Expr) : Prop where
  operand : ∀ f, ReadsOperand spell f e
  strength : ∀ f k, k ≤ 10 → ReadsAt spell f k e
  onward : ∀ f k, k < 10 → ReadsOn spell f k e

theorem Reads.whole (h : Reads spell e) : ReadsWhole spell e :=
  readsWhole_of_readsAt fun f => h.strength f 0 (Nat.zero_le 10)

theorem ReadsOperand.readsAt (h : ReadsOperand spell f e) : ReadsAt spell f 10 e := by
  intro passed ts rest hts hlen hrest
  rw [levelAt_ten]
  exact h f passed ts rest hts hlen hlen hrest

/-- A reader hands on what the next stronger one reads, as long as the expression is of neither
strength on the way. -/
theorem ReadsAt.descend {m : Nat} (h : ReadsAt spell f m e) (hm : m ≤ 10) (hkm : k ≤ m)
    (he : ∀ j, k ≤ j → j < m → e.level ≠ j) : ReadsAt spell f k e := by
  induction m with
  | zero =>
    obtain rfl : k = 0 := by omega
    exact h
  | succ m ih =>
    rcases Nat.eq_or_lt_of_le hkm with rfl | hlt
    · exact h
    · have hbelow : ReadsAt spell f m e := (h.readsOn hm (he m (by omega) (by omega))).readsAt
      exact ih hbelow (by omega) (by omega) fun j hkj hjm => he j hkj (by omega)

theorem reads_of_operand (hlevel : 10 ≤ e.level) (h : ∀ f, ReadsOperand spell f e) :
    Reads spell e := by
  have hat : ∀ f k, k ≤ 10 → ReadsAt spell f k e := by
    intro f k hk
    exact (h f).readsAt.descend (Nat.le_refl 10) hk fun j _ hj => by omega
  refine ⟨h, hat, ?_⟩
  intro f k hk
  exact (hat f (k + 1) hk).readsOn hk (by omega)

/-- An operator is read at its own strength first, from there at the weaker ones and so as a whole,
hence in parentheses, and from there at the stronger ones. -/
theorem reads_binary (hl : Reads spell l) (hr : Reads spell r) : Reads spell (.binary op l r) := by
  have hlevel : (Expr.binary op l r).level = op.level := rfl
  have hop : op.level < 10 := op.level_lt
  have hon (f : Nat) : ReadsOn spell f op.level (.binary op l r) :=
    readsOn_binary (hl.onward f op.level hop) (hr.strength f (op.level + 1) hop)
  have hbelow (f k : Nat) (hk : k ≤ op.level) : ReadsAt spell f k (.binary op l r) :=
    (hon f).readsAt.descend (Nat.le_of_lt hop) hk fun j _ hj => by omega
  have hoperand (f : Nat) : ReadsOperand spell f (.binary op l r) :=
    readsOperand_enclosed hop (readsWhole_of_readsAt fun f => hbelow f 0 (Nat.zero_le _))
  have habove (f k : Nat) (hk : k ≤ 10) (hlt : op.level < k) : ReadsAt spell f k (.binary op l r) :=
    (hoperand f).readsAt.descend (Nat.le_refl 10) hk fun j hj _ => by omega
  have hat (f k : Nat) (hk : k ≤ 10) : ReadsAt spell f k (.binary op l r) := by
    rcases Nat.lt_or_ge op.level k with hlt | hge
    · exact habove f k hk hlt
    · exact hbelow f k hge
  refine ⟨hoperand, hat, ?_⟩
  intro f k hk
  by_cases hkl : k = op.level
  · rw [hkl]
    exact hon f
  · exact (hat f (k + 1) hk).readsOn hk (by omega)

theorem reads_sign (hs : signOf? (.symbol s) = some node) (hlevel : (node e).level = 10)
    (hlex : (node e).lexemes spell = Lexeme.symbol s :: e.lexemesIn spell 10) (h : Reads spell e) :
    Reads spell (node e) := by
  have hin : (node e).lexemesIn spell 10 = Lexeme.symbol s :: e.lexemesIn spell 10 := by
    rw [Expr.lexemesIn_of_le spell (Nat.le_of_eq hlevel.symm), hlex]
  exact reads_of_operand (Nat.le_of_eq hlevel.symm) fun f => readsOperand_sign hs hin (h.operand f)

theorem reads_of_writable {named : String → Prop} {number : Nat → Prop}
    (hspell : ∀ n, number n → Text.literal? (spell n) = some n) (e : Expr) :
    e.Writable named number → Reads spell e := by
  have hself {a : Expr} (ha : a.level = 11) : 10 ≤ a.level := by omega
  induction e with
  | literal n =>
    intro h
    rw [Expr.Writable] at h
    exact reads_of_operand (hself rfl) fun f => readsOperand_literal (hspell n h)
  | name x =>
    intro _
    exact reads_of_operand (hself rfl) fun f => readsOperand_name x
  | call g args ih =>
    intro h
    rw [Expr.Writable] at h
    have hargs : ∀ a ∈ args, ReadsWhole spell a := fun a ha => (ih a ha (h.2.mem a ha)).whole
    have hopens : ∀ a ∈ args, Expr.Opens (a.lexemes spell) :=
      fun a ha => a.opens_lexemes spell (h.2.mem a ha)
    exact reads_of_operand (hself rfl) fun f => readsOperand_call hargs hopens
  | index a i ih =>
    intro h
    rw [Expr.Writable] at h
    exact reads_of_operand (hself rfl) fun f => readsOperand_index (ih h.2).whole
  | addressOf e ih | deref e ih =>
    intro h
    rw [Expr.Writable] at h
    exact reads_sign rfl rfl (by rw [Expr.lexemes]; rfl) (ih h)
  | unary op e ih =>
    intro h
    rw [Expr.Writable] at h
    cases op with
    | complement => exact absurd rfl h.1
    | logicalNot | negate => exact reads_sign rfl rfl (by rw [Expr.lexemes]; rfl) (ih h.2)
  | binary op l r ihl ihr =>
    intro h
    rw [Expr.Writable] at h
    exact reads_binary (ihl h.1) (ihr h.2)
  | foreignUnary op e _ | foreignBinary op l r _ _ | hole =>
    intro h
    rw [Expr.Writable] at h
    exact h.elim

end WordC.Parse

namespace WordC

open Parse Step

/-! ### The text of an expression -/

/-- The text of an expression: decimal literals, single blanks between tokens, parentheses only
where they are needed. -/
def Expr.written (e : Expr) : String := Lexeme.spaced (e.lexemes Nat.repr)

/-- The reader of expressions gives back a written one and stands on the token that ends the input.
-/
theorem Parse.expr_written {spell : Nat → String} {e : Expr} (h : Reads spell e) {ts : List Token}
    (hts : ts.map Token.lexeme = e.lexemes spell) (q : Position) :
    Parse.expr.runOn (ts ++ [Token.endOfInput q]) =
    (.ok e, ⟨ts.reverse, [Token.endOfInput q]⟩) := by
  have hend : ∀ t ∈ [Token.endOfInput q].head?, Closes 0 t.kind := by
    intro t ht
    obtain rfl := Option.some.inj ht
    exact ⟨Kind.noConfusion, Kind.noConfusion, fun _ _ => Kind.noConfusion⟩
  have hread := h.whole ((ts ++ [Token.endOfInput q]).length + 1) [] ts [Token.endOfInput q] hts
    (by rw [List.length_append]; omega) hend
  rw [List.append_nil] at hread
  show Parse.expr ⟨[], ts ++ [Token.endOfInput q]⟩ = _
  rw [Parse.expr, bind_ok (bound_apply _), hread]

theorem Lexeme.scans_of_admits {number : Nat → Prop} {l : Lexeme}
    (h : Expr.Admits IsIdentifier number Nat.repr l) : l.Scans ∧ l.kind ≠ .error := by
  rcases h with ⟨s, rfl⟩ | ⟨x, hx, rfl⟩ | ⟨n, _, rfl⟩
  · exact ⟨Lexeme.scans_symbol s, fun h => nomatch h⟩
  · exact ⟨Lexeme.scans_name hx, fun h => nomatch h⟩
  · exact ⟨Lexeme.scans_repr n, fun h => nomatch h⟩

/-- Writing an expression, scanning the text and reading the tokens is the identity. -/
theorem expr_scan_written (e : Expr)
    (h : e.Writable IsIdentifier (· < 10 ^ Text.maxDecimalDigits)) :
    ∃ ts, scan e.written = .ok ts ∧ (∀ t ∈ ts, t.kind ≠ .error) ∧
      ∃ c, Parse.expr.runOn ts = (.ok e, c) ∧ c.tokens = ts ∧
      ∃ q, c.ahead = [Token.endOfInput q] := by
  have hadmits : ∀ l ∈ e.lexemes Nat.repr,
      Expr.Admits IsIdentifier (· < 10 ^ Text.maxDecimalDigits) Nat.repr l :=
    e.admits_lexemes h
  obtain ⟨ts, q, hts, hscan⟩ := scan_spaced fun l hl => (Lexeme.scans_of_admits (hadmits l hl)).1
  refine ⟨ts ++ [Token.endOfInput q], hscan, ?_, ⟨ts.reverse, [Token.endOfInput q]⟩, ?_, ?_, q, rfl⟩
  · rw [List.forall_mem_append, List.forall_mem_singleton]
    refine ⟨?_, fun h => nomatch h⟩
    intro t ht
    have hl : t.lexeme ∈ e.lexemes Nat.repr := hts ▸ List.mem_map_of_mem ht
    exact (Lexeme.scans_of_admits (hadmits _ hl)).2
  · exact Parse.expr_written (reads_of_writable (fun n hn => Text.literal?_repr hn) e h) hts q
  · rw [Cursor.tokens, List.reverse_reverse]

/-- A right operand of the same strength keeps its parentheses, and the signs, the call and the
index inside it need none. -/
theorem expr_scan_written_nested :
    ∃ e : Expr, e.written = "a - ( - f ( 1 , xs [ a ] ) - * & a )" ∧
      e.Writable IsIdentifier (· < 10 ^ Text.maxDecimalDigits) ∧
      ∃ ts, scan e.written = .ok ts ∧ (∀ t ∈ ts, t.kind ≠ .error) ∧
        ∃ c, Parse.expr.runOn ts = (.ok e, c) ∧ c.tokens = ts ∧
        ∃ q, c.ahead = [Token.endOfInput q] := by
  let e : Expr := .binary .sub (.name "a") (.binary .sub (.unary .negate
    (.call "f" [.literal 1, .index "xs" (.name "a")])) (.deref (.addressOf (.name "a"))))
  have ha : IsIdentifier "a" :=
    ⟨⟨'a', [], rfl, by decide, List.forall_mem_nil _⟩, by intro k; cases k <;> decide⟩
  have hf : IsIdentifier "f" :=
    ⟨⟨'f', [], rfl, by decide, List.forall_mem_nil _⟩, by intro k; cases k <;> decide⟩
  have hxs : IsIdentifier "xs" :=
    ⟨⟨'x', ['s'], rfl, by decide,
      List.forall_mem_singleton.mpr (by decide)⟩, by intro k; cases k <;> decide⟩
  have hone : 1 < 10 ^ Text.maxDecimalDigits := Nat.one_lt_pow (by decide) (by decide)
  have he : e.Writable IsIdentifier (· < 10 ^ Text.maxDecimalDigits) := by
    simp only [e, Expr.Writable, Expr.AllWritable]
    exact ⟨ha, ⟨by decide, hf, hone, ⟨hxs, ha⟩, trivial⟩, ha⟩
  exact ⟨e, by decide, he, expr_scan_written e he⟩

end WordC
