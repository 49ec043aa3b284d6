import WordC.Proofs.Numerals
import WordC.Token.Scan

/-!
# Texts of tokens between blanks

A lexeme is a token without its place. A text that has lexemes between single blanks is scanned back
to tokens of just these lexemes, provided each of them is one that the scanner could have made: then
the blank behind it, or the end of the text, stops the scanner where the lexeme ends. This file
proves that for symbols, names and decimal numbers.
-/

namespace WordC

open Text

structure Lexeme where
  kind : Kind
  text : String
  deriving DecidableEq, Repr

namespace Lexeme

def symbol (s : Symbol) : Lexeme := ⟨.symbol s, s.text⟩

def name (x : String) : Lexeme := ⟨.identifier, x⟩

def number (digits : String) : Lexeme := ⟨.literal, digits⟩

/-- The text of lexemes between single blanks. -/
def spaced (ls : List Lexeme) : String := " ".intercalate (ls.map Lexeme.text)

theorem toList_spaced_nil : (spaced []).toList = [] := by
  rw [spaced, List.map_nil, String.intercalate_nil, String.toList_empty]

theorem toList_spaced_singleton (l : Lexeme) : (spaced [l]).toList = l.text.toList := by
  rw [spaced, List.map_singleton, String.intercalate_singleton]

theorem toList_spaced_cons (l k : Lexeme) (ls : List Lexeme) :
    (spaced (l :: k :: ls)).toList = l.text.toList ++ ' ' :: (spaced (k :: ls)).toList := by
  simp only [spaced, List.map_cons, String.intercalate_cons_cons, String.toList_append,
    List.append_assoc]
  rfl

end Lexeme

def Token.lexeme (t : Token) : Lexeme := ⟨t.kind, t.text⟩

/-! ### One piece -/

theorem scanFrom_pending (done : List Token) (cs : List Char) :
    ∀ (p : Position) (rest : List Char),
      scanFrom done p cs.length (cs ++ rest) = scanFrom done (p.through cs) 0 rest := by
  induction cs with
  | nil => intro p rest; rfl
  | cons c cs ih =>
    intro p rest
    rw [List.cons_append, List.length_cons, scanFrom, ih, Position.through_cons]

variable {c : Char} {cs rest : List Char}

theorem scanFrom_token {k : Kind} (done : List Token) (p : Position)
    (h : Piece.front c (cs ++ rest) = .token k cs.length) :
    scanFrom done p 0 (c :: cs ++ rest) =
      scanFrom (⟨k, String.ofList (c :: cs), p⟩ :: done) (p.through (c :: cs)) 0 rest := by
  rw [List.cons_append, scanFrom, h]
  simp only [List.take_left]
  rw [scanFrom_pending, Position.through_cons]

theorem scanFrom_blank (done : List Token) (p : Position) (rest : List Char) :
    scanFrom done p 0 (' ' :: rest) = scanFrom done (p.step ' ') 0 rest := by
  rw [scanFrom, show Piece.front ' ' rest = .skip 0 from rfl]

/-- What stands behind a lexeme: a blank, or nothing. -/
def EndsLexeme (rest : List Char) : Prop := rest = [] ∨ ∃ cs, rest = ' ' :: cs

/-- A lexeme that the scanner makes from its text when a blank or nothing follows. -/
def Lexeme.Scans (l : Lexeme) : Prop :=
  ∃ c cs, l.text.toList = c :: cs ∧
    ∀ rest, EndsLexeme rest → Piece.front c (cs ++ rest) = .token l.kind cs.length

theorem Lexeme.Scans.scanFrom {l : Lexeme} (h : l.Scans) (done : List Token) (p : Position)
    (hr : EndsLexeme rest) :
    ∃ t : Token, t.lexeme = l ∧
      scanFrom done p 0 (l.text.toList ++ rest) =
      scanFrom (t :: done) (p.through l.text.toList) 0 rest := by
  obtain ⟨c, cs, htext, hfront⟩ := h
  refine ⟨⟨l.kind, String.ofList (c :: cs), p⟩, ?_, ?_⟩
  · rw [Token.lexeme, ← htext, String.ofList_toList]
  · rw [htext]
    exact scanFrom_token done p (hfront rest hr)

/-! ### The whole text -/

theorem scanFrom_spaced (ls : List Lexeme) (hls : ∀ l ∈ ls, l.Scans) :
    ∀ (done : List Token) (p : Position),
      ∃ (ts : List Token) (q : Position), ts.map Token.lexeme = ls ∧
        scanFrom done p 0 (Lexeme.spaced ls).toList =
        .ok (done.reverse ++ ts ++ [Token.endOfInput q]) := by
  induction ls with
  | nil =>
    intro done p
    refine ⟨[], p, rfl, ?_⟩
    rw [Lexeme.toList_spaced_nil, scanFrom, List.reverse_cons, List.append_nil]
  | cons l ls ih =>
    intro done p
    have hl : l.Scans := hls l List.mem_cons_self
    cases ls with
    | nil =>
      obtain ⟨t, ht, hscan⟩ := hl.scanFrom done p (Or.inl rfl)
      refine ⟨[t], p.through l.text.toList, by rw [List.map_singleton, ht], ?_⟩
      rw [Lexeme.toList_spaced_singleton, ← List.append_nil l.text.toList, hscan, scanFrom]
      simp
    | cons k ls =>
      obtain ⟨t, ht, hscan⟩ := hl.scanFrom done p (Or.inr ⟨(Lexeme.spaced (k :: ls)).toList, rfl⟩)
      obtain ⟨ts, q, hts, hrest⟩ := ih (fun i hi => hls i (List.mem_cons_of_mem l hi)) (t :: done)
        ((p.through l.text.toList).step ' ')
      refine ⟨t :: ts, q, by rw [List.map_cons, ht, hts], ?_⟩
      rw [Lexeme.toList_spaced_cons, hscan, scanFrom_blank, hrest]
      simp

/-- Scanning lexemes between blanks gives tokens of these lexemes and the token that ends the input.
-/
theorem scan_spaced {ls : List Lexeme} (hls : ∀ l ∈ ls, l.Scans) :
    ∃ (ts : List Token) (q : Position), ts.map Token.lexeme = ls ∧
      scan (Lexeme.spaced ls) = .ok (ts ++ [Token.endOfInput q]) := by
  obtain ⟨ts, q, hts, hscan⟩ := scanFrom_spaced ls hls [] {}
  refine ⟨ts, q, hts, ?_⟩
  rw [scan, hscan]
  rfl

/-! ### Symbols and names -/

theorem Lexeme.scans_symbol (s : Symbol) : (Lexeme.symbol s).Scans := by
  cases s <;> refine ⟨_, _, rfl, ?_⟩ <;> rintro rest (rfl | ⟨cs, rfl⟩) <;> rfl

/-- A name of the language: a letter or an underscore, then word characters, and no keyword. -/
def IsIdentifier (x : String) : Prop :=
  (∃ c cs, x.toList = c :: cs ∧ isNameStart c = true ∧ ∀ d ∈ cs, isWordChar d = true) ∧
    ∀ k : Keyword, k.text ≠ x

theorem spanLength_append {p : Char → Bool} (h : ∀ c ∈ cs, p c = true)
    (hr : EndsLexeme rest) (hb : p ' ' = false) : Piece.spanLength p (cs ++ rest) = cs.length := by
  have hrest : rest.takeWhile p = [] := by
    rcases hr with rfl | ⟨ds, rfl⟩
    · rfl
    · rw [List.takeWhile_cons_of_neg (by rw [hb]; exact Bool.false_ne_true)]
  rw [Piece.spanLength, List.takeWhile_append_of_pos h, hrest, List.append_nil]

theorem Keyword.ofText?_eq_none {x : String} (h : ∀ k : Keyword, k.text ≠ x) :
    Keyword.ofText? x = none := by
  unfold ofText?
  rw [List.find?_eq_none]
  intro k _ hk
  exact h k (eq_of_beq hk)

/-- A character that neither separates tokens nor can start a comment. -/
theorem front_eq (hb : isBlank c = false) (hs : c ≠ '/') (cs : List Char) :
    Piece.front c cs =
      if isNameStart c then Piece.word c cs
      else if isDigit c then Piece.number c cs
      else Piece.sign c cs := by
  unfold Piece.front
  rw [hb, if_neg Bool.false_ne_true]
  split
  · exact absurd rfl hs
  · exact absurd rfl hs
  · rfl

theorem isBlank_cases (h : isBlank c = true) : c = ' ' ∨ c = '\t' ∨ c = '\r' ∨ c = '\n' := by
  simpa [isBlank, or_assoc] using h

theorem not_blank_of_nameStart (h : isNameStart c = true) : isBlank c = false ∧ c ≠ '/' := by
  constructor
  · rw [← Bool.not_eq_true]
    intro hb
    rcases isBlank_cases hb with rfl | rfl | rfl | rfl <;> exact absurd h (by decide)
  · rintro rfl
    exact absurd h (by decide)

theorem Lexeme.scans_name {x : String} (h : IsIdentifier x) : (Lexeme.name x).Scans := by
  obtain ⟨⟨c, cs, hx, hc, hcs⟩, hk⟩ := h
  refine ⟨c, cs, hx, ?_⟩
  intro rest hr
  obtain ⟨hb, hs⟩ := not_blank_of_nameStart hc
  have hmore : Piece.spanLength isWordChar (cs ++ rest) = cs.length :=
    spanLength_append hcs hr (by decide)
  have hword : String.ofList (c :: cs) = x := by rw [← hx, String.ofList_toList]
  rw [front_eq hb hs, if_pos hc, Piece.word]
  simp only [hmore, List.take_left, hword, Keyword.ofText?_eq_none hk]
  rfl

/-! ### Numbers -/

theorem not_blank_of_digit (h : c.isDigit = true) : isBlank c = false ∧ c ≠ '/' := by
  constructor
  · rw [← Bool.not_eq_true]
    intro hb
    rcases isBlank_cases hb with rfl | rfl | rfl | rfl <;> exact absurd h (by decide)
  · rintro rfl
    exact absurd h (by decide)

theorem not_nameStart_of_digit (h : c.isDigit = true) : isNameStart c = false := by
  have hr := digit_range h
  have hc : c ≠ '_' := by
    rintro rfl
    exact absurd h (by decide)
  have hupper : c.isUpper = false := by
    rw [← Bool.not_eq_true]
    intro hu
    have hA : c.val ≥ 'A'.val ∧ c.val ≤ 'Z'.val := of_decide_eq_true hu
    have : 65 ≤ c.toNat := hA.1
    omega
  have hlower : c.isLower = false := by
    rw [← Bool.not_eq_true]
    intro hl
    have ha : c.val ≥ 'a'.val := of_decide_eq_true (Bool.and_eq_true_iff.mp hl).1
    have : 97 ≤ c.toNat := ha
    omega
  have halpha : c.isAlpha = false := by
    show (c.isUpper || c.isLower) = false
    rw [hupper, hlower]
    rfl
  rw [isNameStart, isLetter_ascii (toNat_lt_of_isDigit h), halpha, Bool.false_or,
    beq_eq_false_iff_ne]
  exact hc

/-- A run of digits is a number, and the letter of a hexadecimal one is no digit. -/
theorem number_digits (h : ∀ d ∈ cs, isDigit d = true) (hr : EndsLexeme rest) :
    Piece.number c (cs ++ rest) = .token .literal cs.length := by
  have hspan : Piece.spanLength isDigit (cs ++ rest) = cs.length :=
    spanLength_append h hr (by decide)
  have hx (d : Char) (hd : isDigit d = false) (hb : d ≠ ' ') (ds : List Char) :
      cs ++ rest ≠ d :: ds := by
    cases cs with
    | nil =>
      rcases hr with rfl | ⟨es, rfl⟩
      · exact fun h => nomatch h
      · intro he
        exact hb (List.cons.inj he).1.symm
    | cons e es =>
      intro he
      have hde := h e List.mem_cons_self
      rw [(List.cons.inj he).1, hd] at hde
      exact Bool.false_ne_true hde
  unfold Piece.number
  split
  · next ds he => exact absurd he (hx 'x' (by decide) (by decide) ds)
  · next ds he => exact absurd he (hx 'X' (by decide) (by decide) ds)
  · rw [hspan]

theorem Lexeme.scans_digits (hb : isBlank c = false) (hs : c ≠ '/') (hname : isNameStart c = false)
    (hc : isDigit c = true) (hcs : ∀ d ∈ cs, isDigit d = true) :
    (Lexeme.number (String.ofList (c :: cs))).Scans := by
  refine ⟨c, cs, String.toList_ofList, ?_⟩
  intro rest hr
  rw [front_eq hb hs, hname, if_neg Bool.false_ne_true, if_pos hc]
  exact number_digits hcs hr

theorem Lexeme.scans_repr (n : Nat) : (Lexeme.number n.repr).Scans := by
  have hdigit : ∀ d ∈ Nat.toDigits 10 n, d.isDigit = true := fun d hd => isDigit_of_mem_digits hd
  obtain ⟨c, cs, hcs⟩ := List.exists_cons_of_ne_nil (Nat.toDigits_ne_nil (n := n) (b := 10))
  rw [hcs] at hdigit
  have htext : n.repr = String.ofList (c :: cs) := by
    rw [← hcs, ← Nat.toList_repr, String.ofList_toList]
  have hc : c.isDigit = true := hdigit c List.mem_cons_self
  obtain ⟨hb, hs⟩ := not_blank_of_digit hc
  rw [htext]
  refine Lexeme.scans_digits hb hs (not_nameStart_of_digit hc) (isDigit_of_decimal hc) ?_
  exact fun d hd => isDigit_of_decimal (hdigit d (List.mem_cons_of_mem c hd))

end WordC
