import WordC.Proofs.TokenPrinting

/-!
# Where a raw assembly block ends

Braces nest inside a raw block, so the block should end at the brace that closes it: the first one
behind which more braces are closed than opened. The scanner looks for that brace, but it passes
over the character behind an inner closing brace without counting it. So it finds the brace that
closes `asSeen text`, in which such characters are blank, and reads the block as it stands exactly
when the two texts are closed at the same place. That is so when no brace stands directly behind an
inner closing one.

The scanner is followed piece by piece: `Scanner.next` passes one piece, and `Scanner.Reaches` are
the places between two pieces that a scan of a source comes to.
-/

namespace WordC

/-! ### The brace that closes a block -/

/-- The place of the brace that closes a block of which `depth` inner braces are open: the first
place up to which more braces are closed than opened. -/
structure Closes (depth : Nat) (cs : List Char) (i : Nat) : Prop where
  within : i < cs.length
  exceeds : depth + (cs.take (i + 1)).count '\x7b' < (cs.take (i + 1)).count '\x7d'
  first : ∀ j < i, (cs.take (j + 1)).count '\x7d' ≤ depth + (cs.take (j + 1)).count '\x7b'

namespace Closes

variable {depth depth' i j : Nat} {c : Char} {cs : List Char}

theorem unique (hi : Closes depth cs i) (hj : Closes depth cs j) : i = j := by
  rcases Nat.lt_trichotomy i j with hlt | heq | hlt
  · exact absurd hi.exceeds (Nat.not_lt_of_le (hj.first i hlt))
  · exact heq
  · exact absurd hj.exceeds (Nat.not_lt_of_le (hi.first j hlt))

theorem not_nil : ¬ Closes depth [] i := fun h => absurd h.within (Nat.not_lt_zero i)

/-- A character that leaves the block open changes the depth and moves the place by one. -/
theorem cons_iff (h : depth + [c].count '\x7b' = depth' + [c].count '\x7d') :
    Closes depth (c :: cs) i ↔ ∃ k, i = k + 1 ∧ Closes depth' cs k := by
  have hopened (k : Nat) :
      ((c :: cs).take (k + 1)).count '\x7b' = [c].count '\x7b' + (cs.take k).count '\x7b' := by
    rw [List.take_succ_cons, ← List.singleton_append, List.count_append]
  have hclosed (k : Nat) :
      ((c :: cs).take (k + 1)).count '\x7d' = [c].count '\x7d' + (cs.take k).count '\x7d' := by
    rw [List.take_succ_cons, ← List.singleton_append, List.count_append]
  constructor
  · rintro ⟨hwithin, hexceeds, hfirst⟩
    cases i with
    | zero =>
      rw [hopened, hclosed, List.take_zero, List.count_nil, List.count_nil] at hexceeds
      omega
    | succ k =>
      refine ⟨k, rfl, Nat.lt_of_succ_lt_succ hwithin, ?_, fun j hj => ?_⟩
      · rw [hopened, hclosed] at hexceeds
        omega
      · have hle := hfirst (j + 1) (Nat.succ_lt_succ hj)
        rw [hopened, hclosed] at hle
        omega
  · rintro ⟨k, rfl, hwithin, hexceeds, hfirst⟩
    refine ⟨Nat.succ_lt_succ hwithin, ?_, fun j hj => ?_⟩
    · rw [hopened, hclosed]
      omega
    · rw [hopened, hclosed]
      cases j with
      | zero =>
        rw [List.take_zero, List.count_nil, List.count_nil]
        omega
      | succ j =>
        have hle := hfirst j (Nat.lt_of_succ_lt_succ hj)
        omega

theorem opening_iff : Closes depth ('\x7b' :: cs) i ↔
    ∃ k, i = k + 1 ∧ Closes (depth + 1) cs k := cons_iff rfl

theorem inner_iff : Closes (depth + 1) ('\x7d' :: cs) i ↔
    ∃ k, i = k + 1 ∧ Closes depth cs k := cons_iff rfl

theorem plain_iff (hopen : c ≠ '\x7b') (hclose : c ≠ '\x7d') :
    Closes depth (c :: cs) i ↔ ∃ k, i = k + 1 ∧ Closes depth cs k := by
  refine cons_iff ?_
  rw [List.count_eq_zero_of_not_mem (by simpa using hopen.symm),
    List.count_eq_zero_of_not_mem (by simpa using hclose.symm)]

theorem last_iff : Closes 0 ('\x7d' :: cs) i ↔ i = 0 := by
  have hzero : Closes 0 ('\x7d' :: cs) 0 :=
    ⟨Nat.zero_lt_succ _, by rw [List.take_succ_cons, List.take_zero]; decide,
      fun j hj => absurd hj (Nat.not_lt_zero j)⟩
  exact ⟨fun h => h.unique hzero, fun h => h ▸ hzero⟩

end Closes

/-! ### What the scanner sees of a block -/

/-- The text of a block as far as the scanner looks at it: what stands directly behind a closing
brace is blank. -/
def asSeen : List Char → List Char
  | [] => []
  | '\x7d' :: _ :: cs => '\x7d' :: ' ' :: asSeen cs
  | c :: cs => c :: asSeen cs

variable {cs : List Char} {depth : Nat}

theorem asSeen_cons {c : Char} (h : c ≠ '\x7d') : asSeen (c :: cs) = c :: asSeen cs := by
  cases cs <;> simp [asSeen, h]

theorem length_asSeen (cs : List Char) : (asSeen cs).length = cs.length := by
  fun_induction asSeen cs with
  | case1 => rfl
  | case2 c cs ih => rw [List.length_cons, List.length_cons, ih, List.length_cons, List.length_cons]
  | case3 c cs _ ih => rw [List.length_cons, ih, List.length_cons]

theorem blank_iff {i : Nat} : Closes depth (' ' :: cs) i ↔ ∃ k, i = k + 1 ∧ Closes depth cs k :=
  Closes.plain_iff (by decide) (by decide)

/-- The scanner of a block finds the brace that closes what it sees. -/
theorem asmLength?_eq_some_iff {n m : Nat} :
    asmLength? depth n cs = some m ↔ ∃ i, m = n + i ∧ Closes depth (asSeen cs) i := by
  fun_induction asmLength? depth n cs with
  | case1 depth n =>
    constructor
    · intro h
      cases h
    · rintro ⟨i, -, h⟩
      exact absurd h Closes.not_nil
  | case2 depth n cs ih =>
    rw [ih, asSeen_cons (by decide)]
    simp only [Closes.opening_iff]
    constructor
    · rintro ⟨i, rfl, h⟩
      exact ⟨i + 1, by omega, i, rfl, h⟩
    · rintro ⟨_, rfl, i, rfl, h⟩
      exact ⟨i, by omega, h⟩
  | case3 n cs =>
    have hseen : ∃ ds, asSeen ('\x7d' :: cs) = '\x7d' :: ds := by
      cases cs with
      | nil => exact ⟨[], rfl⟩
      | cons c cs => exact ⟨' ' :: asSeen cs, rfl⟩
    obtain ⟨ds, hds⟩ := hseen
    rw [hds]
    simp only [Closes.last_iff, exists_eq_right, Nat.add_zero, Option.some.injEq]
    exact eq_comm
  | case4 n depth =>
    constructor
    · intro h
      cases h
    · rintro ⟨i, -, h⟩
      obtain ⟨k, -, h⟩ := Closes.inner_iff.mp h
      exact absurd h Closes.not_nil
  | case5 n depth c cs ih =>
    rw [ih, asSeen]
    simp only [Closes.inner_iff, blank_iff]
    constructor
    · rintro ⟨i, rfl, h⟩
      exact ⟨i + 2, by omega, i + 1, rfl, i, rfl, h⟩
    · rintro ⟨_, rfl, _, rfl, i, rfl, h⟩
      exact ⟨i, by omega, h⟩
  | case6 depth n c cs hopen hclose ih =>
    rw [ih, asSeen_cons hclose]
    simp only [Closes.plain_iff hopen hclose]
    constructor
    · rintro ⟨i, rfl, h⟩
      exact ⟨i + 1, by omega, i, rfl, h⟩
    · rintro ⟨_, rfl, i, rfl, h⟩
      exact ⟨i, by omega, h⟩

/-! ### Blocks that are seen as they are -/

/-- No brace stands directly behind an inner closing one. -/
def InnerApart (depth : Nat) (cs : List Char) : Prop :=
  ∀ j, cs[j]? = some '\x7d' → (∀ i ≤ j, ¬ Closes depth cs i) →
    cs[j + 1]? ≠ some '\x7b' ∧ cs[j + 1]? ≠ some '\x7d'

/-- Behind characters that leave the block open the condition is the same at another depth. -/
theorem InnerApart.behind {depth' : Nat} (front : List Char) (h : InnerApart depth (front ++ cs))
    (hfront : ∀ i, Closes depth (front ++ cs) i → ∃ k, i = front.length + k ∧ Closes depth' cs k) :
    InnerApart depth' cs := by
  intro j hj hopen
  have hplace (k : Nat) : (front ++ cs)[front.length + k]? = cs[k]? := by
    rw [List.getElem?_append_right (Nat.le_add_right _ _), Nat.add_sub_cancel_left]
  have hnext := h (front.length + j) (by rw [hplace, hj]) fun i hi hcloses => by
    obtain ⟨k, rfl, hk⟩ := hfront i hcloses
    exact hopen k (by omega) hk
  rwa [Nat.add_assoc, hplace] at hnext

/-- Where the braces are apart, what the scanner sees is closed where the text is. -/
theorem closes_asSeen_iff (h : InnerApart depth cs) (i : Nat) :
    Closes depth cs i ↔ Closes depth (asSeen cs) i := by
  fun_induction asSeen cs generalizing depth i with
  | case1 => rfl
  | case2 c cs ih =>
    cases depth with
    | zero => rw [Closes.last_iff, Closes.last_iff]
    | succ depth =>
      obtain ⟨hopen, hclose⟩ := h 0 rfl fun i hi hcloses => by
        obtain ⟨k, rfl, -⟩ := Closes.inner_iff.mp hcloses
        omega
      have hplain : c ≠ '\x7b' ∧ c ≠ '\x7d' := by simpa using And.intro hopen hclose
      have hapart : InnerApart depth cs := by
        refine InnerApart.behind ['\x7d', c] h fun i hi => ?_
        obtain ⟨_, rfl, hrest⟩ := Closes.inner_iff.mp hi
        obtain ⟨k, rfl, hk⟩ := (Closes.plain_iff hplain.1 hplain.2).mp hrest
        exact ⟨k, Nat.add_comm k 2, hk⟩
      simp only [Closes.inner_iff, Closes.plain_iff hplain.1 hplain.2, blank_iff, ih hapart]
  | case3 c cs hnot ih =>
    by_cases hclose : c = '\x7d'
    · subst hclose
      cases cs with
      | nil => rfl
      | cons d ds => exact absurd rfl (hnot d ds rfl)
    · by_cases hopen : c = '\x7b'
      · subst hopen
        have hapart : InnerApart (depth + 1) cs := by
          refine InnerApart.behind ['\x7b'] h fun i hi => ?_
          obtain ⟨k, rfl, hk⟩ := Closes.opening_iff.mp hi
          exact ⟨k, Nat.add_comm k 1, hk⟩
        simp only [Closes.opening_iff, ih hapart]
      · have hapart : InnerApart depth cs := by
          refine InnerApart.behind [c] h fun i hi => ?_
          obtain ⟨k, rfl, hk⟩ := (Closes.plain_iff hopen hclose).mp hi
          exact ⟨k, Nat.add_comm k 1, hk⟩
        simp only [Closes.plain_iff hopen hclose, ih hapart]

/-! ### The scanner between two pieces -/

/-- The tokens so far, the last one first, and the text that is left with its place. -/
structure Scanner where
  done : List Token
  place : Position
  rest : List Char

namespace Scanner

def start (source : String) : Scanner := ⟨[], {}, source.toList⟩

/-- What comes of the text that is left. -/
def run (s : Scanner) : Except ScanError (List Token) := scanFrom s.done s.place 0 s.rest

/-- The scanner behind the next characters, which gave the tokens `ts`. -/
def pass (s : Scanner) (ts : List Token) (n : Nat) : Scanner :=
  ⟨ts ++ s.done, s.place.through (s.rest.take n), s.rest.drop n⟩

/-- The scanner behind the next piece. At the end of the text, and in a comment without end, there
is none. -/
def next (s : Scanner) : Except ScanError (Option Scanner) :=
  match s.rest with
  | [] => .ok none
  | c :: cs =>
    match Piece.front c cs with
    | .skip more => .ok (s.pass [] (more + 1))
    | .token kind more =>
      .ok (s.pass [⟨kind, String.ofList (c :: cs.take more), s.place⟩] (more + 1))
    | .asmBlock blanks size =>
      .ok (s.pass [⟨.asmBlock, String.ofList ((s.rest.drop (blanks + 4)).take size),
        s.place.through (s.rest.take (blanks + 4))⟩, ⟨.keyword .asm, Keyword.asm.text, s.place⟩]
        (blanks + 4 + size + 1))
    | .unknown => .ok (s.pass [Token.unknownChar c s.place] 1)
    | .openComment => .ok none
    | .openAsm blanks => .error (.openAsm (s.place.through (s.rest.take (blanks + 4))))

/-- The places between two pieces that a scan comes to. -/
inductive Reaches (source : String) : Scanner → Prop
  | start : Reaches source (start source)
  | next {s t : Scanner} : Reaches source s → s.next = .ok (some t) → Reaches source t

end Scanner

theorem scanFrom_pass (done : List Token) (p : Position) (n : Nat) (cs : List Char) :
    scanFrom done p n cs = scanFrom done (p.through (cs.take n)) 0 (cs.drop n) := by
  induction n generalizing p cs with
  | zero => rfl
  | succ n ih =>
    cases cs with
    | nil => rfl
    | cons c cs =>
      rw [scanFrom, ih, List.take_succ_cons, List.drop_succ_cons, Position.through_cons]

namespace Scanner

theorem run_pass {s : Scanner} {c : Char} {cs : List Char}
    (hrest : s.rest = c :: cs) (ts : List Token) (n : Nat) :
    (s.pass ts (n + 1)).run = scanFrom (ts ++ s.done) (s.place.step c) n cs := by
  rw [scanFrom_pass, run, pass, hrest, List.take_succ_cons, List.drop_succ_cons,
    Position.through_cons]

/-- Passing a piece does not change what comes of the text. -/
theorem run_next {s t : Scanner} (h : s.next = .ok (some t)) : s.run = t.run := by
  unfold next at h
  cases hrest : s.rest with
  | nil =>
    rw [hrest] at h
    cases h
  | cons c cs =>
    simp only [hrest] at h
    rw [run, hrest, scanFrom]
    cases hfront : Piece.front c cs with
    | skip more | token kind more | unknown =>
      simp only [hfront, Except.ok.injEq, Option.some.injEq] at h ⊢
      rw [← h, run_pass hrest]
      rfl
    | asmBlock blanks size =>
      simp only [hfront, Except.ok.injEq, Option.some.injEq] at h ⊢
      rw [← h, run_pass hrest, show blanks + 4 + size = blanks + 3 + size + 1 by omega]
      rfl
    | openComment | openAsm blanks =>
      rw [hfront] at h
      cases h

theorem run_of_error {s : Scanner} {e : ScanError} (h : s.next = .error e) : s.run = .error e := by
  unfold next at h
  cases hrest : s.rest with
  | nil =>
    rw [hrest] at h
    cases h
  | cons c cs =>
    simp only [hrest] at h
    rw [run, hrest, scanFrom]
    cases hfront : Piece.front c cs with
    | openAsm blanks =>
      simp only [hfront] at h ⊢
      cases h
      rfl
    | _ =>
      rw [hfront] at h
      cases h

theorem Reaches.scan_eq {source : String} {s : Scanner} (h : Reaches source s) :
    scan source = s.run := by
  induction h with
  | start => rfl
  | next _ hnext ih => rw [ih, run_next hnext]

end Scanner

/-! ### The block behind the word `asm` -/

/-- The word, blanks and the opening brace. -/
def asmOpening (bs : List Char) : List Char := 'a' :: 's' :: 'm' :: (bs ++ ['\x7b'])

theorem length_asmOpening (bs : List Char) : (asmOpening bs).length = bs.length + 4 := by
  simp [asmOpening]

namespace Scanner

/-- The scanner behind a block of `i` characters and its closing brace. The block's text is what
stands between the braces. -/
def behindBlock (s : Scanner) (bs text : List Char) (i : Nat) : Scanner :=
  ⟨⟨.asmBlock, String.ofList (text.take i), s.place.through (asmOpening bs)⟩ ::
      ⟨.keyword .asm, Keyword.asm.text, s.place⟩ :: s.done,
    s.place.through (asmOpening bs ++ text.take (i + 1)), text.drop (i + 1)⟩

/-- The error of a block without end, with the place behind its opening brace. -/
def openBlock (s : Scanner) (bs : List Char) : ScanError :=
  .openAsm (s.place.through (asmOpening bs))

theorem message_openBlock (s : Scanner) (bs : List Char) :
    ∃ place, (s.openBlock bs).message = "Unterminated asm block at line " ++ place := by
  let p := s.place.through (asmOpening bs)
  refine ⟨toString p.line ++ ", column " ++ toString p.column, ?_⟩
  show toString "Unterminated asm block at line " ++ toString p.line ++ toString ", column " ++
    toString p.column = _
  simp only [toString, String.append_assoc]

variable {s : Scanner} {bs text : List Char}

theorem next_asm (hrest : s.rest = asmOpening bs ++ text) (hbs : ∀ b ∈ bs, isBlank b = true) :
    s.next = (asmLength? 0 0 text).elim (.error (s.openBlock bs))
    fun i => .ok (some (s.behindBlock bs text i)) := by
  have hfront : Piece.front 'a' ('s' :: 'm' :: (bs ++ '\x7b' :: text)) =
      (asmLength? 0 0 text).elim (.openAsm bs.length) (.asmBlock bs.length) := front_asmBlock hbs
  have hcons : s.rest = 'a' :: 's' :: 'm' :: (bs ++ '\x7b' :: text) := by
    rw [hrest]; simp [asmOpening]
  have htake : s.rest.take (bs.length + 4) = asmOpening bs := by
    rw [hrest, ← length_asmOpening, List.take_left]
  have hdrop : s.rest.drop (bs.length + 4) = text := by
    rw [hrest, ← length_asmOpening, List.drop_left]
  rw [next, hcons]
  simp only [hfront]
  cases asmLength? 0 0 text with
  | none =>
    simp only [Option.elim_none, ← hcons, htake]
    rfl
  | some i =>
    have hpassed : s.rest.take (bs.length + 4 + i + 1) = asmOpening bs ++ text.take (i + 1) := by
      rw [Nat.add_assoc, List.take_add, htake, hdrop]
    have hleft : s.rest.drop (bs.length + 4 + i + 1) = text.drop (i + 1) := by
      rw [Nat.add_assoc, ← List.drop_drop, hdrop]
    simp only [Option.elim_some, ← hcons, htake, hdrop, pass, hpassed, hleft]
    rfl

theorem next_of_closes (hrest : s.rest = asmOpening bs ++ text) (hbs : ∀ b ∈ bs, isBlank b = true)
    {i : Nat} (hi : Closes 0 (asSeen text) i) : s.next = .ok (some (s.behindBlock bs text i)) := by
  rw [next_asm hrest hbs, asmLength?_eq_some_iff.mpr ⟨i, (Nat.zero_add i).symm, hi⟩]
  rfl

theorem next_of_open (hrest : s.rest = asmOpening bs ++ text) (hbs : ∀ b ∈ bs, isBlank b = true)
    (hopen : ∀ i, ¬ Closes 0 (asSeen text) i) : s.next = .error (s.openBlock bs) := by
  have hnone : asmLength? 0 0 text = none := by
    rw [Option.eq_none_iff_forall_ne_some]
    intro m hm
    obtain ⟨i, -, hi⟩ := asmLength?_eq_some_iff.mp hm
    exact hopen i hi
  rw [next_asm hrest hbs, hnone]
  rfl

/-- A block that ends at the brace that closes it: its text is what stands between the braces and
the scanner goes on behind the closing one, or there is no such brace and the scanner fails. -/
structure EndsAtMatch (s : Scanner) (bs text : List Char) : Prop where
  closed : ∀ i, Closes 0 text i → s.next = .ok (some (s.behindBlock bs text i))
  unclosed : (∀ i, ¬ Closes 0 text i) → s.next = .error (s.openBlock bs)

theorem behindBlock_inj {i j : Nat} (hi : i < text.length) (hj : j < text.length)
    (h : s.behindBlock bs text i = s.behindBlock bs text j) : i = j := by
  have hdrop : text.drop (i + 1) = text.drop (j + 1) := congrArg Scanner.rest h
  have hlength := congrArg List.length hdrop
  rw [List.length_drop, List.length_drop] at hlength
  omega

theorem endsAtMatch_iff (hrest : s.rest = asmOpening bs ++ text)
    (hbs : ∀ b ∈ bs, isBlank b = true) :
    s.EndsAtMatch bs text ↔ ∀ i, Closes 0 text i ↔ Closes 0 (asSeen text) i := by
  have hlength : (asSeen text).length = text.length := length_asSeen text
  constructor
  · intro h i
    constructor
    · intro hi
      have hnext := h.closed i hi
      by_cases hseen : ∃ j, Closes 0 (asSeen text) j
      · obtain ⟨j, hj⟩ := hseen
        rw [next_of_closes hrest hbs hj] at hnext
        have heq := behindBlock_inj (hlength ▸ hj.within) hi.within
          (Option.some.inj (Except.ok.inj hnext))
        exact heq ▸ hj
      · rw [next_of_open hrest hbs fun j hj => hseen ⟨j, hj⟩] at hnext
        cases hnext
    · intro hi
      have hnext := next_of_closes hrest hbs hi
      by_cases hclosed : ∃ j, Closes 0 text j
      · obtain ⟨j, hj⟩ := hclosed
        rw [h.closed j hj] at hnext
        have heq := behindBlock_inj hj.within (hlength ▸ hi.within)
          (Option.some.inj (Except.ok.inj hnext))
        exact heq ▸ hj
      · rw [h.unclosed fun j hj => hclosed ⟨j, hj⟩] at hnext
        cases hnext
  · intro h
    refine ⟨fun i hi => next_of_closes hrest hbs ((h i).mp hi), fun hopen => ?_⟩
    exact next_of_open hrest hbs fun i hi => hopen i ((h i).mpr hi)

end Scanner

/-- A raw block at a place that a scan comes to. The scanner ends it at the brace that closes what
it sees, takes the text between the braces for the block and goes on behind the closing one; without
such a brace the whole scan fails. So the block ends at its matching brace exactly when that brace
also closes what is seen, which is so if no brace stands directly behind an inner closing one. -/
theorem asm_block_ends_iff (source : String) (s : Scanner) (bs text : List Char)
    (hreach : Scanner.Reaches source s) (hrest : s.rest = asmOpening bs ++ text)
    (hbs : ∀ b ∈ bs, isBlank b = true) : (∀ i, Closes 0 (asSeen text) i →
      s.next = .ok (some (s.behindBlock bs text i)) ∧ scan source = (s.behindBlock bs text i).run) ∧
    ((∀ i, ¬ Closes 0 (asSeen text) i) → scan source = .error (s.openBlock bs) ∧
      ∃ place, (s.openBlock bs).message = "Unterminated asm block at line " ++ place) ∧
    (s.EndsAtMatch bs text ↔ ∀ i, Closes 0 text i ↔ Closes 0 (asSeen text) i) ∧
    (InnerApart 0 text → s.EndsAtMatch bs text) := by
  refine ⟨fun i hi => ?_, fun hopen => ?_, Scanner.endsAtMatch_iff hrest hbs, fun hapart => ?_⟩
  · have hnext := Scanner.next_of_closes hrest hbs hi
    exact ⟨hnext, (hreach.next hnext).scan_eq⟩
  · refine ⟨?_, s.message_openBlock bs⟩
    rw [hreach.scan_eq, Scanner.run_of_error (Scanner.next_of_open hrest hbs hopen)]
  · exact (Scanner.endsAtMatch_iff hrest hbs).mpr (closes_asSeen_iff hapart)

/-- A block with an inner pair of braces behind a word. The closing brace of the inner pair is
followed by a blank. -/
theorem nestedBlock_ends : ∃ s, Scanner.Reaches "f asm \x7ba\x7bb\x7d c\x7d\x7d" s ∧
    s.rest = asmOpening [' '] ++ ['a', '\x7b', 'b', '\x7d', ' ', 'c', '\x7d', '\x7d'] ∧
    Closes 0 ['a', '\x7b', 'b', '\x7d', ' ', 'c', '\x7d', '\x7d'] 6 ∧
    s.EndsAtMatch [' '] ['a', '\x7b', 'b', '\x7d', ' ', 'c', '\x7d', '\x7d'] := by
  have hreach :
      Scanner.Reaches "f asm \x7ba\x7bb\x7d c\x7d\x7d" ⟨[⟨.identifier, "f", ⟨1, 1⟩⟩], ⟨1, 3⟩,
      asmOpening [' '] ++ ['a', '\x7b', 'b', '\x7d', ' ', 'c', '\x7d', '\x7d']⟩ :=
    .next (.next .start rfl) rfl
  have hcloses : Closes 0 ['a', '\x7b', 'b', '\x7d', ' ', 'c', '\x7d', '\x7d'] 6 :=
    ⟨by decide, by decide, by decide⟩
  have hseen : Closes 0 (asSeen ['a', '\x7b', 'b', '\x7d', ' ', 'c', '\x7d', '\x7d']) 6 :=
    ⟨by decide, by decide, by decide⟩
  refine ⟨_, hreach, rfl, hcloses, ?_⟩
  refine (asm_block_ends_iff _ _ _ _ hreach rfl (List.forall_mem_singleton.mpr rfl)).2.2.1.mpr
    fun i => ?_
  exact ⟨fun hi => hi.unique hcloses ▸ hseen, fun hi => hi.unique hseen ▸ hcloses⟩

/-- A block with an inner pair of braces directly in front of its closing brace: that brace is not
counted. -/
theorem tightBlock_unterminated : Closes 0 ['\x7b', '\x7d', '\x7d'] 2 ∧
    scan "asm \x7b\x7b\x7d\x7d" = .error (.openAsm ⟨1, 6⟩) ∧
    ¬ (Scanner.start "asm \x7b\x7b\x7d\x7d").EndsAtMatch [' '] ['\x7b', '\x7d', '\x7d'] := by
  have hcloses : Closes 0 ['\x7b', '\x7d', '\x7d'] 2 := ⟨by decide, by decide, by decide⟩
  refine ⟨hcloses, rfl, fun h => ?_⟩
  have hnext : (Scanner.start "asm \x7b\x7b\x7d\x7d").next = .error (.openAsm ⟨1, 6⟩) := rfl
  rw [h.closed 2 hcloses] at hnext
  cases hnext

end WordC
