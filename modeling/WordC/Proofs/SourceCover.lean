import WordC.Proofs.Lexemes

/-!
# Tokens cover their source

A source on which the scanner returns is cut into tokens and gaps. Each token shows the text it was
cut from and the place where that text starts, counted in the source itself; a gap holds blanks and
complete comments only, except around a raw assembly block, where blanks and an opening brace stand
in front of the block and the closing brace behind it. Behind the last token a comment may be open:
then, and only then, the list ends with an error instead of the token that ends the input.
-/

namespace WordC

open Text

/-! ### Gaps -/

/-- Text without the end of a block comment. -/
def Unended (cs : List Char) : Prop := ¬ ['*', '/'] <:+: cs

/-- Blanks and complete comments, and behind them a last part. A comment that starts with two
slashes is complete with the end of its line. -/
inductive SkippedThen (last : List Char → Prop) : List Char → Prop
  | stop {cs : List Char} : last cs → SkippedThen last cs
  | blank {c : Char} {cs : List Char} :
      isBlank c = true → SkippedThen last cs → SkippedThen last (c :: cs)
  | line {body cs : List Char} :
      '\n' ∉ body → SkippedThen last cs → SkippedThen last ('/' :: '/' :: (body ++ '\n' :: cs))
  | block {body cs : List Char} : Unended body → SkippedThen last cs →
      SkippedThen last ('/' :: '*' :: (body ++ '*' :: '/' :: cs))

/-- Blanks and complete comments. -/
def Skipped : List Char → Prop := SkippedThen (· = [])

/-- The end of a source completes a comment that starts with two slashes. -/
def EndsSource (cs : List Char) : Prop := cs = [] ∨ ∃ body, cs = '/' :: '/' :: body ∧ '\n' ∉ body

/-- A comment without its end. -/
def OpensComment (cs : List Char) : Prop := ∃ body, cs = '/' :: '*' :: body ∧ Unended body

variable {cs gap body text : List Char} {last : List Char → Prop} {n : Nat}

theorem EndsSource.skipped {c : Char} (h : EndsSource (c :: cs)) : Skipped (c :: cs ++ ['\n']) := by
  rcases h with h | ⟨body, heq, hbody⟩
  · contradiction
  · rw [heq]
    exact .line hbody (.stop rfl)

theorem skipped_nil : Skipped [] := .stop rfl

theorem Skipped.before {ds : List Char} (hcs : Skipped cs) (hds : SkippedThen last ds) :
    SkippedThen last (cs ++ ds) := by
  induction hcs with
  | stop h => rwa [h, List.nil_append]
  | blank hc _ ih => exact .blank hc ih
  | line hbody _ ih =>
    rw [List.cons_append, List.cons_append, List.append_assoc]
    exact .line hbody ih
  | block hbody _ ih =>
    rw [List.cons_append, List.cons_append, List.append_assoc]
    exact .block hbody ih

/-! ### A source ends inside a comment or it does not -/

theorem unended_tail {c : Char} (h : Unended (c :: cs)) : Unended cs :=
  fun hinfix => h (List.infix_cons hinfix)

/-- The first end of a comment is found in one way only. -/
theorem unended_split {body' cs' : List Char} (h : Unended body) (h' : Unended body')
    (heq : body ++ '*' :: '/' :: cs = body' ++ '*' :: '/' :: cs') : cs = cs' := by
  induction body generalizing body' with
  | nil =>
    cases body' with
    | nil => simpa using heq
    | cons c body' =>
      obtain ⟨rfl, hrest⟩ := List.cons.inj heq
      cases body' with
      | nil => simp at hrest
      | cons d body' =>
        obtain ⟨rfl, -⟩ := List.cons.inj hrest
        exact absurd ⟨[], body', rfl⟩ h'
  | cons c body ih =>
    cases body' with
    | nil =>
      obtain ⟨rfl, hrest⟩ := List.cons.inj heq
      cases body with
      | nil => simp at hrest
      | cons d body =>
        obtain ⟨rfl, -⟩ := List.cons.inj hrest
        exact absurd ⟨[], body, rfl⟩ h
    | cons d body' =>
      obtain ⟨rfl, hrest⟩ := List.cons.inj heq
      exact ih (unended_tail h) (unended_tail h') hrest

/-- The first end of a line is found in one way only. -/
theorem line_split {body' cs' : List Char} (h : '\n' ∉ body) (h' : '\n' ∉ body')
    (heq : body ++ '\n' :: cs = body' ++ '\n' :: cs') : cs = cs' := by
  induction body generalizing body' with
  | nil =>
    cases body' with
    | nil => simpa using heq
    | cons c body' =>
      obtain ⟨rfl, -⟩ := List.cons.inj heq
      simp at h'
  | cons c body ih =>
    cases body' with
    | nil =>
      obtain ⟨rfl, -⟩ := List.cons.inj heq
      simp at h
    | cons d body' =>
      obtain ⟨rfl, hrest⟩ := List.cons.inj heq
      simp only [List.mem_cons, not_or] at h h'
      exact ih h.2 h'.2 hrest

/-- What the first characters say about a text that is skipped up to its last part. -/
theorem SkippedThen.cases_front (h : SkippedThen last text) :
    last text ∨ (∃ c cs, text = c :: cs ∧ isBlank c = true ∧ SkippedThen last cs) ∨
      (∃ body cs, text = '/' :: '/' :: (body ++ '\n' :: cs) ∧ '\n' ∉ body ∧ SkippedThen last cs) ∨
      ∃ body cs, text = '/' :: '*' :: (body ++ '*' :: '/' :: cs) ∧ Unended body ∧
      SkippedThen last cs := by
  cases h with
  | stop h => exact .inl h
  | blank hc h => exact .inr (.inl ⟨_, _, rfl, hc, h⟩)
  | line hbody h => exact .inr (.inr (.inl ⟨_, _, rfl, hbody, h⟩))
  | block hbody h => exact .inr (.inr (.inr ⟨_, _, rfl, hbody, h⟩))

/-- A source whose comments are complete does not end inside a comment. -/
theorem SkippedThen.not_ends (hopen : SkippedThen OpensComment text) :
    ¬ SkippedThen EndsSource text := by
  have hslash : isBlank '/' ≠ true := by decide
  induction hopen with
  | stop hlast =>
    obtain ⟨body, rfl, hbody⟩ := hlast
    intro h
    rcases h.cases_front with hend | ⟨c, cs, heq, hc, -⟩ | ⟨body', cs, heq, -⟩ | ⟨body', cs, heq, -⟩
    · rcases hend with heq | ⟨body', heq, -⟩ <;> simp at heq
    · obtain ⟨rfl, -⟩ := List.cons.inj heq
      exact hslash hc
    · simp at heq
    · simp only [List.cons.injEq, true_and] at heq
      exact hbody ⟨body', cs, by rw [heq, List.append_assoc]; rfl⟩
  | @blank c cs hc _ ih =>
    intro h
    rcases h.cases_front
      with hend | ⟨d, ds, heq, -, hds⟩ | ⟨body', ds, heq, -⟩ | ⟨body', ds, heq, -⟩
    · rcases hend with heq | ⟨body', heq, -⟩
      · simp at heq
      · obtain ⟨rfl, -⟩ := List.cons.inj heq
        exact hslash hc
    · obtain ⟨-, rfl⟩ := List.cons.inj heq
      exact ih hds
    all_goals
      obtain ⟨rfl, -⟩ := List.cons.inj heq
      exact hslash hc
  | @line body cs hbody _ ih =>
    intro h
    rcases h.cases_front
      with hend | ⟨d, ds, heq, hd, -⟩ | ⟨body', ds, heq, hbody', hds⟩ | ⟨body', ds, heq, -⟩
    · rcases hend with heq | ⟨body', heq, hbody'⟩
      · simp at heq
      · simp only [List.cons.injEq, true_and] at heq
        exact hbody' (heq ▸ by simp)
    · obtain ⟨rfl, -⟩ := List.cons.inj heq
      exact hslash hd
    · simp only [List.cons.injEq, true_and] at heq
      rw [line_split hbody hbody' heq] at ih
      exact ih hds
    · simp at heq
  | @block body cs hbody _ ih =>
    intro h
    rcases h.cases_front
      with hend | ⟨d, ds, heq, hd, -⟩ | ⟨body', ds, heq, -⟩ | ⟨body', ds, heq, hbody', hds⟩
    · rcases hend with heq | ⟨body', heq, -⟩ <;> simp at heq
    · obtain ⟨rfl, -⟩ := List.cons.inj heq
      exact hslash hd
    · simp at heq
    · simp only [List.cons.injEq, true_and] at heq
      rw [unended_split hbody hbody' heq] at ih
      exact ih hds

/-! ### Places -/

/-- The place behind a text that starts a source: a line for each newline, and a column for each
character behind the last one. -/
def Position.behind (cs : List Char) : Position :=
  ⟨1 + cs.count '\n', 1 + (cs.reverse.takeWhile (· != '\n')).length⟩

theorem Position.behind_append_singleton (cs : List Char) (c : Char) :
    behind (cs ++ [c]) = (behind cs).step c := by
  by_cases hc : c = '\n'
  · subst hc
    simp [behind, step, Nat.add_assoc]
  · simp [behind, step, hc, Nat.add_assoc]

theorem Position.behind_append (cs ds : List Char) :
    behind (cs ++ ds) = (behind cs).through ds := by
  induction ds generalizing cs with
  | nil => rw [List.append_nil]; rfl
  | cons d ds ih => rw [List.append_cons, ih, behind_append_singleton, through_cons]

/-! ### What the piece at the front covers -/

theorem commentLength?_eq_some {k : Nat} (h : commentLength? n cs = some k) :
    ∃ body rest, cs = body ++ '*' :: '/' :: rest ∧ Unended body ∧ k = n + body.length + 2 := by
  fun_induction commentLength? n cs with
  | case1 => contradiction
  | case2 n rest => exact ⟨[], rest, rfl, by simp [Unended], (Option.some.inj h).symm⟩
  | case3 n c cs hne ih =>
    obtain ⟨body, rest, rfl, hbody, rfl⟩ := ih h
    refine ⟨c :: body, rest, rfl, ?_, by simp only [List.length_cons]; omega⟩
    intro hinfix
    rcases List.infix_cons_iff.mp hinfix with hfront | hinfix
    · obtain ⟨ds, hds⟩ := hfront
      simp only [List.cons_append, List.nil_append, List.cons.injEq] at hds
      exact hne (ds ++ '*' :: '/' :: rest) hds.1.symm (by rw [← hds.2]; rfl)
    · exact hbody hinfix

theorem commentLength?_eq_none (h : commentLength? n cs = none) : Unended cs := by
  fun_induction commentLength? n cs with
  | case1 => simp [Unended]
  | case2 => contradiction
  | case3 n c cs hne ih =>
    intro hinfix
    rcases List.infix_cons_iff.mp hinfix with ⟨ds, hds⟩ | hinfix
    · simp only [List.cons_append, List.nil_append, List.cons.injEq] at hds
      exact hne ds hds.1.symm hds.2.symm
    · exact ih h hinfix

/-- The scanner of a raw block does not look behind the closing brace. -/
theorem asmLength?_eq_some {depth k : Nat} (h : asmLength? depth n cs = some k) :
    ∃ body rest, cs = body ++ '\x7d' :: rest ∧ k = n + body.length ∧
      ∀ rest', asmLength? depth n (body ++ '\x7d' :: rest') = some k := by
  fun_induction asmLength? depth n cs with
  | case1 => cases h
  | case2 depth n cs ih =>
    obtain ⟨body, rest, rfl, rfl, hstops⟩ := ih h
    refine ⟨'\x7b' :: body, rest, rfl, by simp only [List.length_cons]; omega, fun rest' => ?_⟩
    rw [List.cons_append, asmLength?, hstops]
  | case3 n cs =>
    obtain rfl := Option.some.inj h
    exact ⟨[], cs, rfl, rfl, fun rest' => rfl⟩
  | case4 => cases h
  | case5 n depth d cs ih =>
    obtain ⟨body, rest, rfl, rfl, hstops⟩ := ih h
    refine ⟨'\x7d' :: d :: body, rest, rfl, by simp only [List.length_cons]; omega, fun rest' => ?_⟩
    rw [List.cons_append, List.cons_append, asmLength?, hstops]
  | case6 depth n c cs hopen hclose ih =>
    obtain ⟨body, rest, rfl, rfl, hstops⟩ := ih h
    refine ⟨c :: body, rest, rfl, by simp only [List.length_cons]; omega, fun rest' => ?_⟩
    rw [List.cons_append, asmLength?, hstops]
    · exact hopen
    · exact hclose

/-- What the piece that starts at `c` says about the text `cs` behind it. -/
def Piece.Covers (c : Char) (cs : List Char) : Piece → Prop
  | skip more => ∃ body rest, cs = body ++ rest ∧ more = body.length ∧
      (Skipped (c :: body) ∨ EndsSource (c :: body) ∧ (rest = [] ∨ ∃ ds, rest = '\n' :: ds))
  | token kind more =>
    kind ≠ .error ∧ kind ≠ .endOfInput ∧ kind ≠ .asmBlock ∧ ∃ text rest, cs = text ++ rest ∧
      more = text.length
  | asmBlock blanks size =>
    ∃ bs body rest, c :: cs = 'a' :: 's' :: 'm' :: (bs ++ '\x7b' :: (body ++ '\x7d' :: rest)) ∧
      (∀ b ∈ bs, isBlank b = true) ∧ blanks = bs.length ∧ size = body.length
  | openComment => OpensComment (c :: cs)
  | unknown => True
  | openAsm _ => True

theorem exists_span (p : Char → Bool) (cs : List Char) :
    ∃ text rest, cs = text ++ rest ∧ Piece.spanLength p cs = text.length :=
  ⟨cs.takeWhile p, cs.dropWhile p, List.takeWhile_append_dropWhile.symm, rfl⟩

theorem take_spanLength (p : Char → Bool) (cs : List Char) :
    cs.take (Piece.spanLength p cs) = cs.takeWhile p :=
  (List.prefix_iff_eq_take.mp (List.takeWhile_prefix p)).symm

theorem take_append_dropWhile (p : Char → Bool) (cs : List Char) :
    cs.take (Piece.spanLength p cs) ++ cs.dropWhile p = cs := by
  rw [take_spanLength, List.takeWhile_append_dropWhile]

theorem drop_spanLength (p : Char → Bool) (cs : List Char) :
    cs.drop (Piece.spanLength p cs) = cs.dropWhile p :=
  List.append_cancel_left ((List.take_append_drop _ cs).trans (take_append_dropWhile p cs).symm)

theorem Piece.covers_number (c : Char) (cs : List Char) : (number c cs).Covers c cs := by
  unfold number
  split
  case h_3 => exact ⟨by decide, by decide, by decide, exists_span isDigit _⟩
  all_goals
    obtain ⟨text, rest, hds, hlength⟩ := exists_span isHexDigit ‹List Char›
    refine ⟨by decide, by decide, by decide, ?_⟩
    exact ⟨_ :: text, rest, by rw [List.cons_append, ← hds], by rw [hlength, List.length_cons]⟩

theorem Piece.covers_sign (c : Char) (cs : List Char) : (sign c cs).Covers c cs := by
  have hsymbol (s : Symbol) : Kind.symbol s ≠ .error ∧ Kind.symbol s ≠ .endOfInput ∧
      Kind.symbol s ≠ .asmBlock := by
    refine ⟨?_, ?_, ?_⟩ <;> intro h <;> cases h
  unfold sign
  split
  · next s hpair =>
    obtain ⟨d, hd, -⟩ := Option.bind_eq_some_iff.mp hpair
    obtain ⟨ds, rfl⟩ := List.head?_eq_some_iff.mp hd
    exact ⟨(hsymbol s).1, (hsymbol s).2.1, (hsymbol s).2.2, [d], ds, rfl, rfl⟩
  · split
    · next s _ => exact ⟨(hsymbol s).1, (hsymbol s).2.1, (hsymbol s).2.2, [], cs, rfl, rfl⟩
    · trivial

theorem Keyword.text_of_ofText? {x : String} {k : Keyword} (h : Keyword.ofText? x = some k) :
    k.text = x := by
  unfold ofText? at h
  have hk := List.find?_some h
  exact eq_of_beq hk

theorem Piece.covers_word (c : Char) (cs : List Char) : (word c cs).Covers c cs := by
  have hkeyword (k : Keyword) : Kind.keyword k ≠ .error ∧ Kind.keyword k ≠ .endOfInput ∧
      Kind.keyword k ≠ .asmBlock := by
    refine ⟨?_, ?_, ?_⟩ <;> intro h <;> cases h
  unfold word
  dsimp only
  split
  · next hasm =>
    have htext : ['a', 's', 'm'] = c :: cs.take (spanLength isWordChar cs) := by
      rw [← String.toList_ofList (l := c :: _), ← Keyword.text_of_ofText? hasm]
      rfl
    split
    · next body hbody =>
      split
      · next size hsize =>
        obtain ⟨body, rest, rfl, rfl, -⟩ := asmLength?_eq_some hsize
        refine ⟨(cs.drop (spanLength isWordChar cs)).takeWhile isBlank, body, rest, ?_, ?_,
          rfl, Nat.zero_add _⟩
        · rw [drop_spanLength isBlank] at hbody
          calc c :: cs = (c :: cs.take (spanLength isWordChar cs)) ++
              cs.drop (spanLength isWordChar cs) := by
                rw [List.cons_append, List.take_append_drop]
            _ = ['a', 's', 'm'] ++ cs.drop (spanLength isWordChar cs) := by rw [htext]
            _ = ['a', 's', 'm'] ++ ((cs.drop (spanLength isWordChar cs)).takeWhile isBlank ++
            '\x7b' :: (body ++ '\x7d' :: rest)) := by
                rw [← hbody, List.takeWhile_append_dropWhile]
        · exact fun b hb => List.all_eq_true.mp List.all_takeWhile b hb
      · trivial
    · exact ⟨(hkeyword .asm).1, (hkeyword .asm).2.1, (hkeyword .asm).2.2, exists_span isWordChar cs⟩
  · next k _ _ =>
      exact ⟨(hkeyword k).1, (hkeyword k).2.1, (hkeyword k).2.2, exists_span isWordChar cs⟩
  · exact ⟨by decide, by decide, by decide, exists_span isWordChar cs⟩

theorem Piece.covers_front (c : Char) (cs : List Char) : (front c cs).Covers c cs := by
  unfold front
  split
  · next hc => exact ⟨[], cs, rfl, rfl, .inl (.blank hc skipped_nil)⟩
  split
  · next ds _ =>
    refine ⟨'/' :: ds.takeWhile (· != '\n'), ds.dropWhile (· != '\n'), ?_, rfl,
      .inr ⟨.inr ⟨_, rfl, ?_⟩, ?_⟩⟩
    · rw [List.cons_append, List.takeWhile_append_dropWhile]
    · intro hmem
      exact absurd (List.all_eq_true.mp List.all_takeWhile _ hmem) (by decide)
    · cases hrest : ds.dropWhile (· != '\n') with
      | nil => exact .inl rfl
      | cons d rest =>
        have hd := List.head?_dropWhile_not (· != '\n') ds
        rw [hrest] at hd
        exact .inr ⟨rest, by simpa using hd⟩
  · next ds _ =>
    split
    · next n hn =>
      obtain ⟨body, rest, rfl, hbody, rfl⟩ := commentLength?_eq_some hn
      refine ⟨'*' :: (body ++ ['*', '/']), rest, by simp, by simp, .inl (.block hbody skipped_nil)⟩
    · next hn => exact ⟨ds, rfl, commentLength?_eq_none hn⟩
  · split
    · exact covers_word c cs
    split
    · exact covers_number c cs
    · exact covers_sign c cs

theorem scanFrom_asm {bs rest : List Char} (done : List Token) (p : Position)
    (h : Piece.front 'a' ('s' :: 'm' :: (bs ++ '\x7b' :: (body ++ '\x7d' :: rest))) =
      .asmBlock bs.length body.length) :
    scanFrom done p 0 ('a' :: 's' :: 'm' :: (bs ++ '\x7b' :: (body ++ '\x7d' :: rest))) =
      scanFrom (⟨.asmBlock, String.ofList body,
        p.through ('a' :: 's' :: 'm' :: (bs ++ ['\x7b']))⟩ ::
        ⟨.keyword .asm, Keyword.asm.text, p⟩ :: done)
        (p.through ('a' :: 's' :: 'm' :: (bs ++ '\x7b' :: (body ++ ['\x7d'])))) 0 rest := by
  have hsplit : 's' :: 'm' :: (bs ++ '\x7b' :: (body ++ '\x7d' :: rest)) =
      's' :: 'm' :: (bs ++ ['\x7b']) ++ (body ++ '\x7d' :: rest) := by simp
  have hopening : bs.length + 3 = ('s' :: 'm' :: (bs ++ ['\x7b'])).length := by simp
  have hpassed : 's' :: 'm' :: (bs ++ '\x7b' :: (body ++ '\x7d' :: rest)) =
      's' :: 'm' :: (bs ++ '\x7b' :: (body ++ ['\x7d'])) ++ rest := by simp
  have hpending : bs.length + 3 + body.length + 1 =
      ('s' :: 'm' :: (bs ++ '\x7b' :: (body ++ ['\x7d']))).length := by
    simp only [List.length_cons, List.length_append, List.length_nil]
    omega
  rw [scanFrom, h]
  dsimp only
  rw [hpending, hopening, hsplit, List.take_left, List.drop_left, List.take_left, ← hsplit, hpassed,
    scanFrom_pending, ← Position.through_cons]

/-! ### Cuts -/

/-- A token, the text it was cut from and the text skipped in front of that. -/
structure Cut where
  gap : List Char
  text : List Char
  token : Token

def Cut.chars (k : Cut) : List Char := k.gap ++ k.text

/-- A token shows its text, or it says that its one character fits no token. -/
def Token.Shows (t : Token) (text : List Char) : Prop :=
  (t.kind ≠ .error ∧ t.kind ≠ .endOfInput ∧ t.text = String.ofList text) ∨
    ∃ c, text = [c] ∧ t = Token.unknownChar c t.position

theorem Token.shows_ofList {kind : Kind} (herror : kind ≠ .error) (hend : kind ≠ .endOfInput)
    (text : List Char) (p : Position) : Token.Shows ⟨kind, String.ofList text, p⟩ text :=
  .inl ⟨herror, hend, rfl⟩

theorem Token.shows_unknownChar (c : Char) (p : Position) : (Token.unknownChar c p).Shows [c] :=
  .inr ⟨c, rfl, rfl⟩

def lastKind? (ks : List Cut) : Option Kind := ks.getLast?.map fun k => k.token.kind

/-- Directly behind a raw assembly block stands its closing brace. -/
def Behind (ks : List Cut) (part : List Char → Prop) (cs : List Char) : Prop :=
  if lastKind? ks = some .asmBlock then ∃ ds, cs = '\x7d' :: ds ∧ part ds else part cs

/-- A raw assembly block stands behind the word `asm`, blanks and the opening brace. -/
def GapFits (ks : List Cut) (kind : Kind) (gap : List Char) : Prop :=
  if kind = .asmBlock then
    lastKind? ks = some (.keyword .asm) ∧ ∃ blanks, (∀ b ∈ blanks, isBlank b = true) ∧
      gap = blanks ++ ['\x7b']
  else Behind ks Skipped gap

/-- A cut that may come behind others: its token shows its text, is at the place where that text
starts, and the gap is one. -/
structure Cut.Fits (k : Cut) (ks : List Cut) : Prop where
  shows_text : k.token.Shows k.text
  place : k.token.position = .behind (ks.flatMap chars ++ k.gap)
  gap : GapFits ks k.token.kind k.gap

/-- Every cut fits behind those before it. -/
def Fitting (ks : List Cut) : Prop := ∀ before k after, ks = before ++ k :: after → k.Fits before

theorem fitting_nil : Fitting [] := by
  intro before k after h
  simp at h

variable {ks : List Cut}

theorem Fitting.concat {k : Cut} (h : Fitting ks) (hk : k.Fits ks) : Fitting (ks ++ [k]) := by
  intro before l after heq
  rcases List.eq_nil_or_concat after with rfl | ⟨after, m, rfl⟩
  · obtain ⟨rfl, hl⟩ := List.append_inj_left' heq rfl, List.append_inj_right' heq rfl
    obtain ⟨rfl, -⟩ := List.cons.inj hl
    exact hk
  · rw [List.concat_eq_append, ← List.cons_append, ← List.append_assoc] at heq
    exact h before l after (List.append_inj_left' heq rfl)

theorem lastKind?_concat (ks : List Cut) (k : Cut) : lastKind? (ks ++ [k]) = some k.token.kind := by
  simp [lastKind?]

/-- The scanner between two pieces: the tokens so far, and the text skipped since the last of them.
-/
structure Scanned (ks : List Cut) (gap : List Char) : Prop where
  fitting : Fitting ks
  behind : Behind ks Skipped gap

/-- The place of a scanner that has passed cuts and a gap. -/
def placeAt (ks : List Cut) (gap : List Char) : Position := .behind (ks.flatMap Cut.chars ++ gap)

theorem Behind.append {ds : List Char} (h : Behind ks Skipped cs)
    (hds : SkippedThen last ds) : Behind ks (SkippedThen last) (cs ++ ds) := by
  unfold Behind at h ⊢
  split at h
  · next hasm =>
    obtain ⟨es, rfl, hes⟩ := h
    rw [if_pos hasm]
    exact ⟨es ++ ds, rfl, hes.before hds⟩
  · next hasm =>
    rw [if_neg hasm]
    exact Skipped.before h hds

theorem Behind.not_ends (hopen : Behind ks (SkippedThen OpensComment) cs) :
    ¬ Behind ks (SkippedThen EndsSource) cs := by
  unfold Behind at hopen ⊢
  split at hopen
  · next hasm =>
    rw [if_pos hasm]
    obtain ⟨ds, rfl, hds⟩ := hopen
    rintro ⟨es, heq, hes⟩
    obtain ⟨-, rfl⟩ := List.cons.inj heq
    exact hds.not_ends hes
  · next hasm =>
    rw [if_neg hasm]
    exact hopen.not_ends

theorem Scanned.skip (h : Scanned ks gap) (hcs : Skipped cs) : Scanned ks (gap ++ cs) :=
  ⟨h.fitting, h.behind.append hcs⟩

theorem placeAt_append (ks : List Cut) (gap cs : List Char) :
    placeAt ks (gap ++ cs) = (placeAt ks gap).through cs := by
  rw [placeAt, ← List.append_assoc, Position.behind_append, ← placeAt]

theorem placeAt_cut (ks : List Cut) (gap text : List Char) (t : Token) :
    placeAt (ks ++ [⟨gap, text, t⟩]) [] = (placeAt ks gap).through text := by
  rw [← placeAt_append]
  simp [placeAt, Cut.chars]

/-- A token behind the gap. -/
theorem Scanned.cut {t : Token} (h : Scanned ks gap) (hshows : t.Shows text)
    (hplace : t.position = placeAt ks gap) (hkind : t.kind ≠ .asmBlock) :
    Scanned (ks ++ [⟨gap, text, t⟩]) [] := by
  refine ⟨h.fitting.concat ⟨hshows, hplace, ?_⟩, ?_⟩
  · rw [GapFits, if_neg hkind]
    exact h.behind
  · rw [Behind, lastKind?_concat, if_neg (by simpa using hkind)]
    exact skipped_nil

/-- A source cut into tokens, the text behind the last cut, and the token that ends the list. It
ends with an error just when the source ends inside a comment. -/
structure CutUp (source : List Char) (cuts : List Cut) (tail : List Char)
    (last : Token) : Prop where
  source_eq : source = cuts.flatMap Cut.chars ++ tail
  fits : ∀ before k after, cuts = before ++ k :: after → k.Fits before
  ends : last = Token.endOfInput (.behind source) ∧ Behind cuts (SkippedThen EndsSource) tail ∨
    last = Token.openComment (.behind source) ∧ Behind cuts (SkippedThen OpensComment) tail
  error_iff : last.kind = .error ↔ Behind cuts (SkippedThen OpensComment) tail

/-- Tokens that cover a source. -/
def Covers (ts : List Token) (source : List Char) : Prop :=
  ∃ (cuts : List Cut) (tail : List Char) (last : Token), ts = cuts.map Cut.token ++ [last] ∧
    CutUp source cuts tail last

/-- The end of the source. -/
theorem Scanned.covers_end (h : Scanned ks gap) (hcs : EndsSource cs) :
    Covers (Token.endOfInput (placeAt ks (gap ++ cs)) :: (ks.map Cut.token).reverse).reverse
    (ks.flatMap Cut.chars ++ (gap ++ cs)) := by
  have hends : Behind ks (SkippedThen EndsSource) (gap ++ cs) := h.behind.append (.stop hcs)
  refine ⟨ks, gap ++ cs, Token.endOfInput (placeAt ks (gap ++ cs)), by simp, rfl, h.fitting,
    .inl ⟨rfl, hends⟩, ?_⟩
  constructor
  · intro hkind
    cases hkind
  · intro hopen
    exact (hopen.not_ends hends).elim

/-- A comment that is open at the end of the source. -/
theorem Scanned.covers_open (h : Scanned ks gap) (hcs : OpensComment cs) :
    Covers (Token.openComment (placeAt ks (gap ++ cs)) :: (ks.map Cut.token).reverse).reverse
    (ks.flatMap Cut.chars ++ (gap ++ cs)) := by
  have hopen : Behind ks (SkippedThen OpensComment) (gap ++ cs) := h.behind.append (.stop hcs)
  refine ⟨ks, gap ++ cs, Token.openComment (placeAt ks (gap ++ cs)), by simp, rfl, h.fitting,
    .inr ⟨rfl, hopen⟩, ?_⟩
  exact ⟨fun _ => hopen, fun _ => rfl⟩

/-- The word of a raw assembly block. -/
def asmWord (ks : List Cut) (gap : List Char) : Cut :=
  ⟨gap, ['a', 's', 'm'], ⟨.keyword .asm, Keyword.asm.text, placeAt ks gap⟩⟩

/-- A raw assembly block behind its word, blanks and a brace. -/
def asmBody (p : Position) (bs body : List Char) : Cut :=
  ⟨bs ++ ['\x7b'], body,
    ⟨.asmBlock, String.ofList body, p.through ('a' :: 's' :: 'm' :: (bs ++ ['\x7b']))⟩⟩

theorem Scanned.asm {bs : List Char} (h : Scanned ks gap)
    (hbs : ∀ b ∈ bs, isBlank b = true) (body : List Char) :
    Scanned (ks ++ [asmWord ks gap] ++ [asmBody (placeAt ks gap) bs body]) ['\x7d'] := by
  have hword : Scanned (ks ++ [asmWord ks gap]) [] :=
    h.cut (Token.shows_ofList (by decide) (by decide) _ _) rfl
      (show Kind.keyword .asm ≠ .asmBlock by decide)
  refine ⟨hword.fitting.concat ⟨Token.shows_ofList (by decide) (by decide) _ _, ?_, ?_⟩, ?_⟩
  · show _ = placeAt _ ([] ++ (bs ++ ['\x7b']))
    rw [asmWord, placeAt_append, placeAt_cut, ← Position.through_append]
    rfl
  · rw [GapFits, asmBody, if_pos rfl]
    exact ⟨lastKind?_concat _ _, bs, hbs, rfl⟩
  · rw [Behind, lastKind?_concat, asmBody, if_pos rfl]
    exact ⟨[], rfl, skipped_nil⟩

theorem placeAt_asm (ks : List Cut) (gap bs body : List Char) :
    placeAt (ks ++ [asmWord ks gap] ++ [asmBody (placeAt ks gap) bs body]) ['\x7d'] =
      (placeAt ks gap).through ('a' :: 's' :: 'm' :: (bs ++ '\x7b' :: (body ++ ['\x7d']))) := by
  rw [← placeAt_append]
  simp [placeAt, asmWord, asmBody, Cut.chars]

/-- The walk covers the source: the induction is on the length of the text that is left. -/
theorem scanFrom_covers (n : Nat) :
    ∀ (ks : List Cut) (gap rest : List Char) (ts : List Token), rest.length ≤ n → Scanned ks gap →
    scanFrom (ks.map Cut.token).reverse (placeAt ks gap) 0 rest = .ok ts →
    Covers ts (ks.flatMap Cut.chars ++ (gap ++ rest)) := by
  induction n with
  | zero =>
    intro ks gap rest ts hlength h hscan
    obtain rfl := List.length_eq_zero_iff.mp (Nat.le_zero.mp hlength)
    rw [scanFrom] at hscan
    obtain rfl := Except.ok.inj hscan
    have := h.covers_end (.inl rfl)
    rwa [List.append_nil] at this ⊢
  | succ n ih =>
    intro ks gap rest ts hlength h hscan
    cases rest with
    | nil =>
      rw [scanFrom] at hscan
      obtain rfl := Except.ok.inj hscan
      have := h.covers_end (.inl rfl)
      rwa [List.append_nil] at this ⊢
    | cons c cs =>
      have hcovers := Piece.covers_front c cs
      cases hfront : Piece.front c cs with
      | skip more =>
        rw [hfront] at hcovers
        rw [scanFrom, hfront] at hscan
        obtain ⟨body, rest, rfl, rfl, hskip⟩ := hcovers
        dsimp only at hscan
        rw [scanFrom_pending, ← Position.through_cons, ← placeAt_append] at hscan
        rw [← List.cons_append, ← List.append_assoc gap]
        rcases hskip with hskip | ⟨hline, rfl | ⟨ds, rfl⟩⟩
        · exact ih ks (gap ++ c :: body) rest ts (by simp at hlength; omega) (h.skip hskip) hscan
        · rw [scanFrom] at hscan
          obtain rfl := Except.ok.inj hscan
          rw [List.append_nil]
          exact h.covers_end hline
        · -- the end of the line completes the comment
          have hskip : Skipped (c :: body ++ ['\n']) := hline.skipped
          rw [scanFrom, show Piece.front '\n' ds = .skip 0 from rfl] at hscan
          dsimp only at hscan
          have := ih ks (gap ++ (c :: body ++ ['\n'])) ds ts
            (by simp at hlength; omega) (h.skip hskip)
          rw [← List.append_assoc, placeAt_append ks _ ['\n'], Position.through_cons,
            Position.through_nil] at this
          simpa using this hscan
      | token kind more =>
        rw [hfront] at hcovers
        rw [scanFrom, hfront] at hscan
        obtain ⟨herror, hend, hasm, text, rest, rfl, rfl⟩ := hcovers
        dsimp only at hscan
        rw [scanFrom_pending, ← Position.through_cons, List.take_left] at hscan
        have hcut := h.cut (Token.shows_ofList herror hend (c :: text) (placeAt ks gap)) rfl hasm
        have := ih _ _ rest ts (by simp at hlength; omega) hcut
        rw [placeAt_cut] at this
        simpa [Cut.chars] using this (by simpa using hscan)
      | asmBlock blanks size =>
        rw [hfront] at hcovers
        obtain ⟨bs, body, rest, htext, hbs, rfl, rfl⟩ := hcovers
        obtain ⟨rfl, rfl⟩ := List.cons.inj htext
        have := ih _ _ rest ts (by simp at hlength; omega) (h.asm hbs body)
        rw [placeAt_asm] at this
        rw [scanFrom_asm _ _ hfront] at hscan
        simpa [Cut.chars, asmWord, asmBody] using this (by simpa [asmWord, asmBody] using hscan)
      | unknown =>
        rw [scanFrom, hfront] at hscan
        have hcut := h.cut (Token.shows_unknownChar c (placeAt ks gap)) rfl
          (show Kind.error ≠ .asmBlock by decide)
        have := ih _ _ cs ts (by simp at hlength; omega) hcut
        rw [placeAt_cut, Position.through_cons, Position.through_nil] at this
        simpa [Cut.chars] using this (by simpa using hscan)
      | openComment =>
        rw [hfront] at hcovers
        rw [scanFrom, hfront] at hscan
        obtain rfl := Except.ok.inj hscan
        rw [← placeAt_append]
        exact h.covers_open hcovers
      | openAsm blanks =>
        rw [scanFrom, hfront] at hscan
        contradiction

/-- The tokens of a source and the gaps between them make up the source. Every token but the last
shows its text and the place where that text starts, and the gaps are skipped text; the last token
is at the end of the source, and it is an error just when the source ends inside a comment. -/
theorem scan_covers_source (source : String) (ts : List Token) (h : scan source = .ok ts) :
    ∃ (cuts : List Cut) (tail : List Char) (last : Token),
      ts = cuts.map Cut.token ++ [last] ∧ CutUp source.toList cuts tail last :=
  scanFrom_covers _ [] [] source.toList ts (Nat.le_refl _) ⟨fitting_nil, skipped_nil⟩ h

/-- Tokens of two lines, with a raw assembly block, a comment and a character that fits no token. -/
def blockTokens : List Token :=
  [⟨.keyword .asm, "asm", ⟨1, 1⟩⟩, ⟨.asmBlock, "a\x7bb\x7d c", ⟨1, 6⟩⟩,
    Token.unknownChar '@' ⟨2, 3⟩, ⟨.literal, "7", ⟨2, 4⟩⟩, Token.openComment ⟨2, 9⟩]

theorem blockTokens_cover :
    scan "asm \x7ba\x7bb\x7d c\x7d// d\n  @7/* *" = .ok blockTokens ∧
      ∃ (cuts : List Cut) (tail : List Char) (last : Token),
        blockTokens = cuts.map Cut.token ++ [last] ∧
        CutUp "asm \x7ba\x7bb\x7d c\x7d// d\n  @7/* *".toList cuts tail last := by
  have hscan : scan "asm \x7ba\x7bb\x7d c\x7d// d\n  @7/* *" = .ok blockTokens := by rfl
  exact ⟨hscan, scan_covers_source _ _ hscan⟩

end WordC
