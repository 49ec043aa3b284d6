import WordC.Expr.Parse
import WordC.Proofs.Lexemes
import WordC.Proofs.StepLaws

/-!
# Laws of reading steps

What the small reading steps do on a cursor whose tokens ahead are known. A reader is told apart by
the lexemes it passes: the places of tokens play no role in what it reads.
-/

namespace WordC.Parse

open Step

variable {α β : Type}

theorem current?_apply (c : Cursor) : current? c = (.ok c.ahead.head?, c) := rfl

theorem kind?_apply (c : Cursor) : kind? c = (.ok (c.ahead.head?.map Token.kind), c) := rfl

theorem advance_cons (t : Token) (passed ts : List Token) :
    advance ⟨passed, t :: ts⟩ = (.ok t, ⟨t :: passed, ts⟩) := rfl

theorem expect_cons {t : Token} {k : Kind} (h : t.kind = k) (label : Option String)
    (passed ts : List Token) : expect k label ⟨passed, t :: ts⟩ = (.ok t, ⟨t :: passed, ts⟩) := by
  unfold expect
  rw [bind_ok (current?_apply _)]
  simp only [List.head?_cons, h, if_true, advance_cons]

theorem accept_cons {t : Token} {k : Kind} (h : t.kind = k) (passed ts : List Token) :
    accept k ⟨passed, t :: ts⟩ = (.ok true, ⟨t :: passed, ts⟩) := by
  unfold accept
  rw [bind_ok (kind?_apply _)]
  simp only [List.head?_cons, Option.map_some, h, if_true]
  rw [bind_ok (advance_cons t passed ts), pure_apply]

theorem accept_of_ne {k : Kind} {passed rest : List Token} (h : ∀ t ∈ rest.head?, t.kind ≠ k) :
    accept k ⟨passed, rest⟩ = (.ok false, ⟨passed, rest⟩) := by
  have hk : rest.head?.map Token.kind ≠ some k := by
    intro hs
    obtain ⟨t, ht, hkind⟩ := Option.map_eq_some_iff.mp hs
    exact h t ht hkind
  unfold accept
  rw [bind_ok (kind?_apply _)]
  simp only [hk, if_false, pure_apply]

theorem symbol_cons {t : Token} {s : Symbol} (h : t.kind = .symbol s) (passed ts : List Token) :
    symbol s ⟨passed, t :: ts⟩ = (.ok (), ⟨t :: passed, ts⟩) := by
  unfold symbol
  rw [bind_ok (expect_cons h none passed ts), pure_apply]

theorem bound_apply (c : Cursor) : bound c = (.ok (c.ahead.length + 1), c) := rfl

/-! ### Tokens of given lexemes -/

theorem exists_token_of_map_eq_cons {ts : List Token} {l : Lexeme} {ls : List Lexeme}
    (h : ts.map Token.lexeme = l :: ls) :
    ∃ t us, ts = t :: us ∧ t.kind = l.kind ∧ t.text = l.text ∧ us.map Token.lexeme = ls := by
  obtain ⟨t, us, rfl, ht, hus⟩ := List.map_eq_cons_iff.mp h
  refine ⟨t, us, rfl, ?_, ?_, hus⟩
  · rw [← ht]; rfl
  · rw [← ht]; rfl

end WordC.Parse
