import Mathlib.Data.List.Chain
import Mathlib.Data.List.Forall2
import WordC.Proofs.SourceCover

/-!
# Printed tokens are scanned back

Tokens are printed between single blanks, a raw assembly block between its braces. A token that the
scanner has cut from a source is cut again from its text in front of a blank, since every class of
tokens ends there. The word `asm` needs more: what is printed behind it must not open a block that
was none. The scanner of a raw block stops at the same brace again, for it never looks behind it.
-/

namespace WordC

open Text

/-! ### Words, numbers and symbols in front of a blank -/

variable {cs : List Char} {c : Char} {k : Kind} {more : Nat} {ts : List Token} {t : Token}

theorem Lexeme.scans_keyword {k : Keyword} (hc : isNameStart c = true)
    (hcs : ∀ d ∈ cs, isWordChar d = true) (hk : Keyword.ofText? (String.ofList (c :: cs)) = some k)
    (hasm : k ≠ .asm) : Lexeme.Scans ⟨.keyword k, String.ofList (c :: cs)⟩ := by
  refine ⟨c, cs, String.toList_ofList, ?_⟩
  intro rest hr
  obtain ⟨hb, hs⟩ := not_blank_of_nameStart hc
  have hmore : Piece.spanLength isWordChar (cs ++ rest) = cs.length :=
    spanLength_append hcs hr (by decide)
  rw [front_eq hb hs, if_pos hc, Piece.word]
  simp only [hmore, List.take_left, hk]

theorem Lexeme.scans_hex {x : Char} (hx : x = 'x' ∨ x = 'X') (hcs : ∀ d ∈ cs, isHexDigit d = true) :
    (Lexeme.number (String.ofList ('0' :: x :: cs))).Scans := by
  refine ⟨'0', x :: cs, String.toList_ofList, ?_⟩
  intro rest hr
  have hspan : Piece.spanLength isHexDigit (cs ++ rest) = cs.length :=
    spanLength_append hcs hr (by decide)
  rw [front_eq (by decide) (by decide), show isNameStart '0' = false by decide,
    if_neg Bool.false_ne_true, if_pos (by decide : isDigit '0' = true), List.cons_append]
  rcases hx with rfl | rfl
  · show Piece.token .literal (Piece.spanLength isHexDigit (cs ++ rest) + 1) =
      .token .literal (cs.length + 1)
    rw [hspan]
  · show Piece.token .literal (Piece.spanLength isHexDigit (cs ++ rest) + 1) =
      .token .literal (cs.length + 1)
    rw [hspan]

theorem Symbol.text_of_ofPair? {d : Char} {s : Symbol} (h : Symbol.ofPair? c d = some s) :
    s.text = String.ofList [c, d] := by
  unfold ofPair? at h
  split at h <;> cases h <;> rfl

theorem Symbol.text_of_ofChar? {s : Symbol} (h : Symbol.ofChar? c = some s) :
    s.text = String.ofList [c] := by
  unfold ofChar? at h
  split at h <;> cases h <;> rfl

/-! ### What the scanner has cut is cut again -/

theorem mem_take_spanLength {p : Char → Bool} {d : Char} (h : d ∈ cs.take (Piece.spanLength p cs)) :
    p d = true := by
  rw [take_spanLength] at h
  exact List.all_eq_true.mp List.all_takeWhile d h

/-- A lexeme that stands again when it is printed: the word `asm` alone, or one that a blank ends.
-/
def Lexeme.Stands (l : Lexeme) : Prop := l = ⟨.keyword .asm, Keyword.asm.text⟩ ∨ l.Scans

theorem stands_of_word (hc : isNameStart c = true) (h : Piece.word c cs = .token k more) :
    Lexeme.Stands ⟨k, String.ofList (c :: cs.take more)⟩ := by
  have hword : ∀ d ∈ cs.take (Piece.spanLength isWordChar cs), isWordChar d = true :=
    fun d hd => mem_take_spanLength hd
  unfold Piece.word at h
  dsimp only at h
  split at h
  · next hasm =>
    split at h
    · split at h <;> cases h
    · obtain ⟨rfl, rfl⟩ := Piece.token.inj h
      rw [← Keyword.text_of_ofText? hasm]
      exact .inl rfl
  · next k' hne hk =>
    obtain ⟨rfl, rfl⟩ := Piece.token.inj h
    exact .inr (Lexeme.scans_keyword hc hword hk hne)
  · next hnone =>
    obtain ⟨rfl, rfl⟩ := Piece.token.inj h
    refine .inr (Lexeme.scans_name ⟨⟨c, _, String.toList_ofList, hc, hword⟩, ?_⟩)
    intro k htext
    have hk := List.find?_eq_none.mp hnone k (Keyword.mem_all k)
    exact hk (beq_iff_eq.mpr htext)

theorem stands_of_number (hb : isBlank c = false) (hs : c ≠ '/') (hname : isNameStart c = false)
    (hc : isDigit c = true) (h : Piece.number c cs = .token k more) :
    Lexeme.Stands ⟨k, String.ofList (c :: cs.take more)⟩ := by
  unfold Piece.number at h
  split at h
  · next ds =>
    obtain ⟨rfl, rfl⟩ := Piece.token.inj h
    exact .inr (Lexeme.scans_hex (.inl rfl) fun d hd => mem_take_spanLength hd)
  · next ds =>
    obtain ⟨rfl, rfl⟩ := Piece.token.inj h
    exact .inr (Lexeme.scans_hex (.inr rfl) fun d hd => mem_take_spanLength hd)
  · obtain ⟨rfl, rfl⟩ := Piece.token.inj h
    exact .inr (Lexeme.scans_digits hb hs hname hc fun d hd => mem_take_spanLength hd)

theorem stands_of_sign (h : Piece.sign c cs = .token k more) :
    Lexeme.Stands ⟨k, String.ofList (c :: cs.take more)⟩ := by
  unfold Piece.sign at h
  split at h
  · next s hpair =>
    obtain ⟨rfl, rfl⟩ := Piece.token.inj h
    obtain ⟨d, hd, hs⟩ := Option.bind_eq_some_iff.mp hpair
    obtain ⟨ds, rfl⟩ := List.head?_eq_some_iff.mp hd
    rw [show (d :: ds).take 1 = [d] from rfl, ← Symbol.text_of_ofPair? hs]
    exact .inr (Lexeme.scans_symbol s)
  · split at h
    · next s hs =>
      obtain ⟨rfl, rfl⟩ := Piece.token.inj h
      rw [List.take_zero, ← Symbol.text_of_ofChar? hs]
      exact .inr (Lexeme.scans_symbol s)
    · cases h

theorem stands_of_front (h : Piece.front c cs = .token k more) :
    Lexeme.Stands ⟨k, String.ofList (c :: cs.take more)⟩ := by
  unfold Piece.front at h
  split at h
  · cases h
  next hb =>
  split at h
  · cases h
  · split at h <;> cases h
  · split at h
    · next hname => exact stands_of_word hname h
    split at h
    · next hname hdigit =>
      refine stands_of_number (Bool.not_eq_true _ ▸ hb) ?_ (Bool.not_eq_true _ ▸ hname) hdigit h
      rintro rfl
      exact absurd hdigit (by decide)
    · exact stands_of_sign h

/-! ### Raw assembly blocks -/

theorem not_wordChar_of_blank {b : Char} (h : isBlank b = true) : isWordChar b = false := by
  rcases isBlank_cases h with rfl | rfl | rfl | rfl <;> decide

/-- The word `asm` in front of something that does not go on with it. -/
theorem spanLength_asm (h : ∀ c ∈ cs.head?, isWordChar c = false) :
    Piece.spanLength isWordChar ('s' :: 'm' :: cs) = 2 := by
  have hcs : cs.takeWhile isWordChar = [] := by
    cases cs with
    | nil => rfl
    | cons c cs => rw [List.takeWhile_cons_of_neg (by rw [h c rfl]; exact Bool.false_ne_true)]
  rw [Piece.spanLength, List.takeWhile_cons_of_pos (by decide),
    List.takeWhile_cons_of_pos (by decide), hcs]
  rfl

theorem front_asmBlock {bs : List Char} (hbs : ∀ b ∈ bs, isBlank b = true) :
    Piece.front 'a' ('s' :: 'm' :: (bs ++ '\x7b' :: cs)) =
      (asmLength? 0 0 cs).elim (.openAsm bs.length) (.asmBlock bs.length) := by
  have hhead : ∀ c ∈ (bs ++ '\x7b' :: cs).head?, isWordChar c = false := by
    intro c hc
    cases bs with
    | nil =>
      obtain rfl := Option.some.inj hc
      decide
    | cons b bs =>
      obtain rfl := Option.some.inj hc
      exact not_wordChar_of_blank (hbs b List.mem_cons_self)
  have hblanks : Piece.spanLength isBlank (bs ++ '\x7b' :: cs) = bs.length := by
    rw [Piece.spanLength, List.takeWhile_append_of_pos hbs, List.takeWhile_cons_of_neg (by decide),
      List.append_nil]
  rw [front_eq (by decide) (by decide), if_pos (by decide : isNameStart 'a' = true), Piece.word]
  simp only [spanLength_asm hhead, List.take_succ_cons, List.take_zero,
    List.drop_succ_cons, List.drop_zero,
    show Keyword.ofText? (String.ofList ['a', 's', 'm']) = some .asm from rfl,
      hblanks, List.drop_left]
  cases asmLength? 0 0 cs <;> rfl

/-- A raw block that the scanner has cut is cut again, whatever follows. -/
theorem asmLength?_of_front {bs body rest : List Char} (hbs : ∀ b ∈ bs, isBlank b = true)
    (h : Piece.front 'a' ('s' :: 'm' :: (bs ++ '\x7b' :: (body ++ '\x7d' :: rest))) =
      .asmBlock bs.length body.length) (rest' : List Char) :
    asmLength? 0 0 (body ++ '\x7d' :: rest') = some body.length := by
  rw [front_asmBlock hbs] at h
  cases hsize : asmLength? 0 0 (body ++ '\x7d' :: rest) with
  | none =>
    rw [hsize] at h
    cases h
  | some size =>
    rw [hsize] at h
    obtain rfl : size = body.length := (Piece.asmBlock.inj h).2
    obtain ⟨body', _, heq, hlength, hstops⟩ := asmLength?_eq_some hsize
    rw [Nat.zero_add] at hlength
    obtain ⟨rfl, -⟩ := List.append_inj heq hlength
    exact hstops rest'

/-- The word `asm` stands alone where no brace follows the blanks. -/
theorem front_asmWord (h : ∀ ds, cs.dropWhile isBlank ≠ '\x7b' :: ds) :
    Piece.front 'a' ('s' :: 'm' :: ' ' :: cs) = .token (.keyword .asm) 2 := by
  have hhead : ∀ c ∈ (' ' :: cs).head?, isWordChar c = false := by
    intro c hc
    obtain rfl := Option.some.inj hc
    decide
  rw [front_eq (by decide) (by decide), if_pos (by decide : isNameStart 'a' = true), Piece.word]
  simp only [spanLength_asm hhead, List.take_succ_cons, List.take_zero,
    List.drop_succ_cons, List.drop_zero,
    show Keyword.ofText? (String.ofList ['a', 's', 'm']) = some .asm from rfl, drop_spanLength]
  rw [List.dropWhile_cons_of_pos (by decide)]
  split
  · next ds heq => exact absurd heq (h ds)
  · rfl

/-! ### The tokens of a source without errors -/

/-- How the tokens of a source without errors follow each other: a raw block stands behind its word,
every other token stands for itself, and the end of the input comes last. -/
inductive Standing : List Token → Prop
  | last (p : Position) : Standing [Token.endOfInput p]
  | lone {t : Token} {ts : List Token} : t.lexeme.Stands → Standing ts → Standing (t :: ts)
  | block {t u : Token} {body : List Char} {ts : List Token} :
      t.lexeme = ⟨.keyword .asm, Keyword.asm.text⟩ →
      u.lexeme = ⟨.asmBlock, String.ofList body⟩ →
      (∀ rest, asmLength? 0 0 (body ++ '\x7d' :: rest) = some body.length) → Standing ts →
      Standing (t :: u :: ts)

/-- The tokens that the scanner adds: the induction is on the length of the text that is left. -/
theorem standing_scanFrom (n : Nat) :
    ∀ (done : List Token) (p : Position) (cs : List Char) (ts : List Token), cs.length ≤ n →
    scanFrom done p 0 cs = .ok ts →
    ∃ us, ts = done.reverse ++ us ∧ ((∀ t ∈ us, t.kind ≠ .error) → Standing us) := by
  induction n with
  | zero =>
    intro done p cs ts hlength hscan
    obtain rfl := List.length_eq_zero_iff.mp (Nat.le_zero.mp hlength)
    rw [scanFrom] at hscan
    obtain rfl := Except.ok.inj hscan
    exact ⟨[Token.endOfInput p], List.reverse_cons, fun _ => .last p⟩
  | succ n ih =>
    intro done p cs ts hlength hscan
    cases cs with
    | nil =>
      rw [scanFrom] at hscan
      obtain rfl := Except.ok.inj hscan
      exact ⟨[Token.endOfInput p], List.reverse_cons, fun _ => .last p⟩
    | cons c cs =>
      have hcovers := Piece.covers_front c cs
      cases hfront : Piece.front c cs with
      | skip more =>
        rw [hfront] at hcovers
        obtain ⟨body, rest, rfl, rfl, -⟩ := hcovers
        rw [scanFrom, hfront] at hscan
        dsimp only at hscan
        rw [scanFrom_pending] at hscan
        exact ih done _ rest ts (by simp at hlength; omega) hscan
      | token kind more =>
        have hstands := stands_of_front hfront
        rw [hfront] at hcovers
        obtain ⟨-, -, -, text, rest, rfl, rfl⟩ := hcovers
        rw [← List.cons_append, scanFrom_token done p hfront] at hscan
        obtain ⟨us, rfl, hus⟩ := ih _ _ rest ts (by simp at hlength; omega) hscan
        refine ⟨⟨kind, String.ofList (c :: text), p⟩ :: us, by simp,
          fun herror => .lone ?_ (hus ?_)⟩
        · rwa [List.take_left] at hstands
        · exact fun t ht => herror t (List.mem_cons_of_mem _ ht)
      | asmBlock blanks size =>
        rw [hfront] at hcovers
        obtain ⟨bs, body, rest, htext, hbs, rfl, rfl⟩ := hcovers
        obtain ⟨rfl, rfl⟩ := List.cons.inj htext
        rw [scanFrom_asm done p hfront] at hscan
        obtain ⟨us, rfl, hus⟩ := ih _ _ rest ts (by simp at hlength; omega) hscan
        refine ⟨⟨.keyword .asm, Keyword.asm.text, p⟩ ::
          ⟨.asmBlock, String.ofList body,
          p.through ('a' :: 's' :: 'm' :: (bs ++ ['\x7b']))⟩ :: us, by simp, fun herror => ?_⟩
        refine .block rfl rfl (asmLength?_of_front hbs hfront) (hus ?_)
        exact fun t ht => herror t (List.mem_cons_of_mem _ (List.mem_cons_of_mem _ ht))
      | unknown =>
        rw [scanFrom, hfront] at hscan
        obtain ⟨us, rfl, -⟩ := ih _ _ cs ts (by simp at hlength; omega) hscan
        refine ⟨Token.unknownChar c p :: us, by simp, fun herror => ?_⟩
        exact absurd rfl (herror _ List.mem_cons_self)
      | openComment =>
        rw [scanFrom, hfront] at hscan
        obtain rfl := Except.ok.inj hscan
        refine ⟨[Token.openComment (p.through (c :: cs))], List.reverse_cons, fun herror => ?_⟩
        exact absurd rfl (herror _ List.mem_cons_self)
      | openAsm blanks =>
        rw [scanFrom, hfront] at hscan
        cases hscan

/-! ### Printing -/

/-- How a token is printed: a raw block between braces, every other token as its text. -/
def Token.printed (t : Token) : String :=
  if t.kind = .asmBlock then "\x7b" ++ t.text ++ "\x7d" else t.text

/-- Tokens between single blanks. -/
def printTokens (ts : List Token) : String := " ".intercalate (ts.map Token.printed)

/-- A word `asm` that is no raw block's is not in front of an opening brace. -/
def Unbraced (ts : List Token) : Prop :=
  ts.IsChain fun t u => t.kind = .keyword .asm → u.kind ≠ .symbol .leftBrace

theorem toList_printTokens_cons (t : Token) (hts : ts ≠ []) :
    (printTokens (t :: ts)).toList = t.printed.toList ++ ' ' :: (printTokens ts).toList := by
  obtain ⟨u, us, rfl⟩ := List.exists_cons_of_ne_nil hts
  simp only [printTokens, List.map_cons, String.intercalate_cons_cons, String.toList_append,
    List.append_assoc]
  rfl

theorem toList_printTokens_last (p : Position) :
    (printTokens [Token.endOfInput p]).toList = [] := by
  rw [printTokens, List.map_singleton, String.intercalate_singleton]
  rfl

theorem Standing.ne_nil (h : Standing ts) : ts ≠ [] := by
  cases h <;> exact List.cons_ne_nil _ _

theorem printed_eq_text (h : t.kind ≠ .asmBlock) : t.printed = t.text := if_neg h

/-- A lexeme that a blank ends starts with no blank, and with an opening brace only if it is one. -/
theorem Lexeme.Scans.exists_head {l : Lexeme} (h : l.Scans) : ∃ c cs, l.text.toList = c :: cs ∧
    isBlank c = false ∧ (c = '\x7b' → l.kind = .symbol .leftBrace) ∧ l.kind ≠ .asmBlock := by
  obtain ⟨c, cs, htext, hfront⟩ := h
  have hfront := hfront [] (.inl rfl)
  have hkind := Piece.covers_front c (cs ++ [])
  rw [hfront] at hkind
  refine ⟨c, cs, htext, ?_, ?_, hkind.2.2.1⟩
  · rw [← Bool.not_eq_true]
    intro hb
    unfold Piece.front at hfront
    rw [if_pos hb] at hfront
    cases hfront
  · rintro rfl
    have hbrace : Piece.front '\x7b' (cs ++ []) = .token (.symbol .leftBrace) 0 := by
      cases cs <;> rfl
    rw [hbrace] at hfront
    exact (Piece.token.inj hfront).1.symm

/-- The text behind a word `asm` that is no raw block's does not open one. -/
theorem Standing.dropWhile_ne_brace (h : Standing ts)
    (hhead : ∀ t ∈ ts.head?, t.kind ≠ .symbol .leftBrace) (ds : List Char) :
    (printTokens ts).toList.dropWhile isBlank ≠ '\x7b' :: ds := by
  -- the text starts with a character that is neither a blank nor the brace, unless it is empty
  have hstart {c : Char} {cs : List Char} (hb : isBlank c = false) (hc : c ≠ '\x7b') :
      (c :: cs).dropWhile isBlank ≠ '\x7b' :: ds := by
    rw [List.dropWhile_cons_of_neg (by rw [hb]; exact Bool.false_ne_true)]
    exact fun heq => hc (List.cons.inj heq).1
  cases h with
  | last p =>
    rw [toList_printTokens_last]
    exact fun heq => List.cons_ne_nil _ _ heq.symm
  | @lone t ts hstands hts =>
    rw [toList_printTokens_cons t hts.ne_nil]
    rcases hstands with hasm | hscans
    · obtain ⟨hkind, htext⟩ := Lexeme.mk.inj hasm
      rw [printed_eq_text (by rw [hkind]; decide), htext]
      exact hstart (by decide) (by decide)
    · obtain ⟨c, cs, htext, hb, hbrace, hkind⟩ := hscans.exists_head
      rw [printed_eq_text hkind, show t.text.toList = c :: cs from htext]
      exact hstart hb fun hc => hhead t rfl (hbrace hc)
  | @block t u body ts hasm _ _ hts =>
    obtain ⟨hkind, htext⟩ := Lexeme.mk.inj hasm
    rw [toList_printTokens_cons t (List.cons_ne_nil u ts),
      printed_eq_text (by rw [hkind]; decide), htext]
    exact hstart (by decide) (by decide)

theorem Unbraced.tail (h : Unbraced (t :: ts)) : Unbraced ts := List.IsChain.tail h

theorem Unbraced.head (h : Unbraced (t :: ts)) (ht : t.kind = .keyword .asm) :
    ∀ u ∈ ts.head?, u.kind ≠ .symbol .leftBrace := by
  intro u hu
  obtain ⟨us, rfl⟩ := List.head?_eq_some_iff.mp hu
  exact (List.isChain_cons_cons.mp h).1 ht

/-- The text of a word `asm` and what is printed behind it. -/
theorem toList_printTokens_asm (h : t.lexeme = ⟨.keyword .asm, Keyword.asm.text⟩) (hts : ts ≠ []) :
    (printTokens (t :: ts)).toList = 'a' :: ['s', 'm'] ++ ' ' :: (printTokens ts).toList := by
  obtain ⟨hkind, htext⟩ := Lexeme.mk.inj h
  rw [toList_printTokens_cons t hts, printed_eq_text (by rw [hkind]; decide), htext]
  rfl

theorem toList_printed_block {u : Token} {body : List Char}
    (h : u.lexeme = ⟨.asmBlock, String.ofList body⟩) :
    u.printed.toList = '\x7b' :: (body ++ ['\x7d']) := by
  obtain ⟨hkind, htext⟩ := Lexeme.mk.inj h
  rw [Token.printed, if_pos hkind, htext]
  simp

/-- Scanning the printed tokens gives tokens of the same lexemes: the induction is on how the tokens
follow each other. -/
theorem Standing.scanFrom_printTokens (h : Standing ts) (hbraces : Unbraced ts) :
    ∀ (done : List Token) (p : Position),
      ∃ us, us.map Token.lexeme = ts.map Token.lexeme ∧
      scanFrom done p 0 (printTokens ts).toList = .ok (done.reverse ++ us) := by
  induction h with
  | last q =>
    intro done p
    refine ⟨[Token.endOfInput p], rfl, ?_⟩
    rw [toList_printTokens_last, scanFrom, List.reverse_cons]
  | @lone t ts hstands hts ih =>
    intro done p
    -- one token is cut, and the blank behind it is passed
    have hcut : ∃ (t' : Token) (q : Position), t'.lexeme = t.lexeme ∧
        scanFrom done p 0 (printTokens (t :: ts)).toList =
        scanFrom (t' :: done) q 0 (printTokens ts).toList := by
      rcases hstands with hasm | hscans
      · have hhead := hbraces.head (Lexeme.mk.inj hasm).1
        have hfront : Piece.front 'a' (['s', 'm'] ++ ' ' :: (printTokens ts).toList) =
            .token (.keyword .asm) ['s', 'm'].length :=
          front_asmWord (hts.dropWhile_ne_brace hhead)
        refine ⟨⟨.keyword .asm, String.ofList ['a', 's', 'm'], p⟩,
          (p.through ['a', 's', 'm']).step ' ', hasm.symm, ?_⟩
        rw [toList_printTokens_asm hasm hts.ne_nil, scanFrom_token done p hfront, scanFrom_blank]
      · obtain ⟨_, _, _, -, -, hkind⟩ := hscans.exists_head
        obtain ⟨t', ht', hscan⟩ := hscans.scanFrom done p (.inr ⟨(printTokens ts).toList, rfl⟩)
        refine ⟨t', (p.through t.text.toList).step ' ', ht', ?_⟩
        rw [toList_printTokens_cons t hts.ne_nil, printed_eq_text hkind, ← scanFrom_blank]
        exact hscan
    obtain ⟨t', q, ht', hscan⟩ := hcut
    obtain ⟨us, hus, hrest⟩ := ih hbraces.tail (t' :: done) q
    refine ⟨t' :: us, by rw [List.map_cons, List.map_cons, ht', hus], ?_⟩
    rw [hscan, hrest, List.reverse_cons, List.append_assoc]
    rfl
  | @block t u body ts hasm hblock hstops hts ih =>
    intro done p
    have htext : (printTokens (t :: u :: ts)).toList =
        'a' :: 's' :: 'm' ::
        ([' '] ++ '\x7b' :: (body ++ '\x7d' :: (' ' :: (printTokens ts).toList))) := by
      rw [toList_printTokens_asm hasm (List.cons_ne_nil u ts), toList_printTokens_cons u hts.ne_nil,
        toList_printed_block hblock]
      simp
    have hfront : Piece.front 'a' ('s' :: 'm' ::
          ([' '] ++ '\x7b' :: (body ++ '\x7d' :: (' ' :: (printTokens ts).toList)))) =
        .asmBlock [' '].length body.length := by
      have hblank : ∀ b ∈ [' '], isBlank b = true := by
        intro b hb
        rw [List.mem_singleton.mp hb]
        rfl
      rw [front_asmBlock hblank, hstops]
      rfl
    have hcut : ∃ (t' u' : Token) (q : Position), t'.lexeme = t.lexeme ∧ u'.lexeme = u.lexeme ∧
        scanFrom done p 0 (printTokens (t :: u :: ts)).toList =
        scanFrom (u' :: t' :: done) q 0 (printTokens ts).toList := by
      have hscan := scanFrom_asm done p hfront
      rw [scanFrom_blank, ← htext] at hscan
      refine ⟨_, _, _, ?_, ?_, hscan⟩
      · exact hasm.symm
      · exact hblock.symm
    obtain ⟨t', u', q, ht', hu', hscan⟩ := hcut
    obtain ⟨us, hus, hrest⟩ := ih hbraces.tail.tail (u' :: t' :: done) q
    refine ⟨t' :: u' ::
      us, by rw [List.map_cons, List.map_cons, List.map_cons, List.map_cons, ht', hu', hus], ?_⟩
    rw [hscan, hrest]
    simp

theorem Token.agrees_of_lexeme {u : Token} (h : t.lexeme = u.lexeme) : t.agrees u = true := by
  obtain ⟨hkind, htext⟩ := Lexeme.mk.inj h
  rw [agrees, hkind, htext, beq_self_eq_true, beq_self_eq_true]
  rfl

/-- Printing the tokens of a source without errors, in which no word `asm` but a raw block's is in
front of an opening brace, and scanning the text gives the tokens back, but for their places. -/
theorem scan_printTokens (source : String) (ts : List Token) (h : scan source = .ok ts)
    (herror : ∀ t ∈ ts, t.kind ≠ .error) (hbraces : Unbraced ts) : ∃ us, scan (printTokens ts) =
    .ok us ∧ us.length = ts.length ∧ List.Forall₂ (fun t u => t.agrees u = true) ts us := by
  obtain ⟨_, rfl, hstanding⟩ := standing_scanFrom _ [] {} source.toList ts (Nat.le_refl _) h
  obtain ⟨us, hus, hscan⟩ := (hstanding herror).scanFrom_printTokens hbraces [] {}
  refine ⟨us, hscan, ?_, ?_⟩
  · have hlength := congrArg List.length hus
    rwa [List.length_map, List.length_map] at hlength
  · have hsame : List.Forall₂ Eq (ts.map Token.lexeme) (us.map Token.lexeme) := by
      rw [List.forall₂_eq_eq_eq]
      exact hus.symm
    rw [List.forall₂_map_left_iff, List.forall₂_map_right_iff] at hsame
    exact hsame.imp fun _ _ => Token.agrees_of_lexeme

/-- Tokens with a raw block that has braces, a word `asm` alone, symbols that could be read as one,
and a hexadecimal number. -/
def mixedTokens : List Token :=
  [⟨.keyword .asm, "asm", ⟨1, 1⟩⟩, ⟨.asmBlock, "a\x7bb\x7d c", ⟨1, 6⟩⟩,
    ⟨.identifier, "x1", ⟨1, 17⟩⟩, ⟨.symbol .shiftLeft, "<<", ⟨1, 19⟩⟩,
    ⟨.symbol .assign, "=", ⟨1, 21⟩⟩, ⟨.literal, "0x1F", ⟨1, 22⟩⟩, ⟨.keyword .asm, "asm", ⟨2, 1⟩⟩,
    ⟨.symbol .semicolon, ";", ⟨2, 4⟩⟩, Token.endOfInput ⟨2, 5⟩]

theorem mixedTokens_scanned_back :
    scan "asm \x7ba\x7bb\x7d c\x7d/**/x1<<=0x1F\nasm;" = .ok mixedTokens ∧
      ∃ us, scan "asm \x7ba\x7bb\x7d c\x7d x1 << = 0x1F asm ; " = .ok us ∧
      us.length = mixedTokens.length ∧
        List.Forall₂ (fun t u => t.agrees u = true) mixedTokens us := by
  have hscan : scan "asm \x7ba\x7bb\x7d c\x7d/**/x1<<=0x1F\nasm;" = .ok mixedTokens := by rfl
  have hprint : printTokens mixedTokens = "asm \x7ba\x7bb\x7d c\x7d x1 << = 0x1F asm ; " := by rfl
  have hbraces : Unbraced mixedTokens := by
    unfold Unbraced
    decide
  refine ⟨hscan, ?_⟩
  rw [← hprint]
  exact scan_printTokens _ _ hscan (by decide) hbraces

end WordC
