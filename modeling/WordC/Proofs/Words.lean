import WordC.Source.Macro

/-!
# The words of a text

A word of a text is a longest run of word characters. Every text is empty, or it starts with a
character of no word, or it starts with a word behind which no word character stands; the proofs
about words follow these three cases. Putting another text in place of a word neither joins nor
splits the words around it, also when that text is empty, since no word character stands beside a
word.
-/

namespace WordC

/-- A run of word characters. -/
def IsWordText (x : List Char) : Prop := x ≠ [] ∧ ∀ c ∈ x, isWordChar c = true

/-- A word in front of the text ends there. -/
def EndsWord (cs : List Char) : Prop := ∀ c ∈ cs.head?, isWordChar c = false

/-- A word of a text: no word character stands directly in front of it or behind it. -/
def IsWordOf (x cs : List Char) : Prop :=
  IsWordText x ∧ ∃ before after, cs = before ++ (x ++ after) ∧
    EndsWord before.reverse ∧ EndsWord after

theorem endsWord_nil : EndsWord [] := by
  intro c hc
  cases hc

variable {cs x : List Char} {c : Char}

theorem endsWord_cons : EndsWord (c :: cs) ↔ isWordChar c = false := by
  simp [EndsWord]

/-- What is behind a text that is not empty does not matter. -/
theorem EndsWord.append {ds : List Char} (hcs : EndsWord cs) (hds : EndsWord ds) :
    EndsWord (cs ++ ds) := by
  cases cs with
  | nil => exact hds
  | cons c cs => exact endsWord_cons.mpr (endsWord_cons.mp hcs)

theorem IsWordText.exists_cons (h : IsWordText x) : ∃ c cs, x = c :: cs ∧ isWordChar c = true := by
  obtain ⟨c, cs, rfl⟩ := List.exists_cons_of_ne_nil h.1
  exact ⟨c, cs, rfl, h.2 c List.mem_cons_self⟩

/-- A text that starts with a word does not end one. -/
theorem IsWordText.not_endsWord (h : IsWordText x) : ¬ EndsWord (x ++ cs) := by
  obtain ⟨c, ds, rfl, hc⟩ := h.exists_cons
  intro hends
  rw [List.cons_append, endsWord_cons, hc] at hends
  contradiction

theorem takeWhile_word (hx : IsWordText x) (hcs : EndsWord cs) :
    (x ++ cs).takeWhile isWordChar = x := by
  rw [List.takeWhile_append_of_pos hx.2]
  cases cs with
  | nil => rw [List.takeWhile_nil, List.append_nil]
  | cons c cs =>
    rw [List.takeWhile_cons_of_neg (by rw [endsWord_cons.mp hcs]; exact Bool.false_ne_true),
      List.append_nil]

/-- The word at the front of a text is found in one way only. -/
theorem word_split {y as bs : List Char} (hx : IsWordText x) (hy : IsWordText y) (has : EndsWord as)
    (hbs : EndsWord bs) (h : x ++ as = y ++ bs) : x = y ∧ as = bs := by
  have hxy : x = y := by rw [← takeWhile_word hx has, h, takeWhile_word hy hbs]
  subst hxy
  exact ⟨rfl, List.append_cancel_left h⟩

theorem exists_word (cs : List Char) (hc : isWordChar c = true) :
    ∃ x rest, c :: cs = x ++ rest ∧ IsWordText x ∧ EndsWord rest := by
  refine ⟨(c :: cs).takeWhile isWordChar, (c :: cs).dropWhile isWordChar,
    List.takeWhile_append_dropWhile.symm, ⟨?_, ?_⟩, ?_⟩
  · rw [List.takeWhile_cons_of_pos hc]
    exact List.cons_ne_nil _ _
  · exact fun d hd => List.all_eq_true.mp List.all_takeWhile d hd
  · intro d hd
    have := List.head?_dropWhile_not isWordChar (c :: cs)
    rw [hd] at this
    exact this

/-- Every text is built from characters of no word and from words. -/
@[elab_as_elim]
theorem word_induction {motive : List Char → Prop} (nil : motive [])
    (other : ∀ c cs, isWordChar c = false → motive cs → motive (c :: cs))
    (word : ∀ x cs, IsWordText x → EndsWord cs → motive cs → motive (x ++ cs))
    (cs : List Char) : motive cs := by
  induction hn : cs.length using Nat.strongRecOn generalizing cs with
  | ind n ih =>
    cases cs with
    | nil => exact nil
    | cons c cs =>
      rw [List.length_cons] at hn
      by_cases hc : isWordChar c = true
      · obtain ⟨x, rest, heq, hx, hrest⟩ := exists_word cs hc
        have hlength := congrArg List.length heq
        have hpos := List.length_pos_iff.mpr hx.1
        rw [List.length_cons, List.length_append] at hlength
        rw [heq]
        exact word x rest hx hrest (ih rest.length (by omega) rest rfl)
      · exact other c cs (by simpa using hc) (ih cs.length (by omega) cs rfl)

/-! ### Which words a text has -/

theorem isWordOf_nil (x : List Char) : ¬ IsWordOf x [] := by
  rintro ⟨hx, before, after, heq, -⟩
  rw [eq_comm, List.append_eq_nil_iff, List.append_eq_nil_iff] at heq
  exact hx.1 heq.2.1

/-- A character of no word in front adds no word. -/
theorem isWordOf_cons (hc : isWordChar c = false) : IsWordOf x (c :: cs) ↔ IsWordOf x cs := by
  constructor
  · rintro ⟨hx, before, after, heq, hbefore, hafter⟩
    cases before with
    | nil =>
      obtain ⟨d, ds, rfl, hd⟩ := hx.exists_cons
      obtain ⟨rfl, -⟩ := List.cons.inj heq
      rw [hc] at hd
      contradiction
    | cons d before =>
      obtain ⟨-, rfl⟩ := List.cons.inj heq
      refine ⟨hx, before, after, rfl, ?_, hafter⟩
      rw [List.reverse_cons] at hbefore
      cases hb : before.reverse with
      | nil => exact endsWord_nil
      | cons e es =>
        rw [hb, List.cons_append, endsWord_cons] at hbefore
        exact endsWord_cons.mpr hbefore
  · rintro ⟨hx, before, after, rfl, hbefore, hafter⟩
    refine ⟨hx, c :: before, after, rfl, ?_, hafter⟩
    rw [List.reverse_cons]
    exact hbefore.append (endsWord_cons.mpr hc)

/-- A word in front adds itself. -/
theorem isWordOf_word {y : List Char} (hy : IsWordText y) (hcs : EndsWord cs) :
    IsWordOf x (y ++ cs) ↔ x = y ∨ IsWordOf x cs := by
  constructor
  · rintro ⟨hx, before, after, heq, hbefore, hafter⟩
    rcases List.append_eq_append_iff.mp heq with ⟨more, rfl, rfl⟩ | ⟨more, rfl, hmore⟩
    · -- the word lies behind the front one
      refine .inr ⟨hx, more, after, rfl, ?_, hafter⟩
      rw [List.reverse_append] at hbefore
      cases hm : more.reverse with
      | nil => exact endsWord_nil
      | cons e es =>
        rw [hm, List.cons_append, endsWord_cons] at hbefore
        exact endsWord_cons.mpr hbefore
    · -- it starts inside the front one, so at its first character
      cases hb : before.reverse with
      | nil =>
        obtain rfl := List.reverse_eq_nil_iff.mp hb
        rw [List.nil_append] at heq hy
        exact .inl (word_split hx hy hafter hcs heq.symm).1
      | cons e es =>
        rw [hb, endsWord_cons] at hbefore
        have he : e ∈ before := List.mem_reverse.mp (hb ▸ List.mem_cons_self)
        rw [hy.2 e (List.mem_append_left more he)] at hbefore
        contradiction
  · rintro (rfl | ⟨hx, before, after, rfl, hbefore, hafter⟩)
    · exact ⟨hy, [], cs, rfl, endsWord_nil, hcs⟩
    · refine ⟨hx, y ++ before, after, by rw [List.append_assoc], ?_, hafter⟩
      rw [List.reverse_append]
      cases hb : before.reverse with
      | nil =>
        obtain rfl := List.reverse_eq_nil_iff.mp hb
        exact absurd hcs hx.not_endsWord
      | cons e es =>
        rw [hb] at hbefore
        exact endsWord_cons.mpr (endsWord_cons.mp hbefore)

/-- Behind a text that is followed by no word character the words go on as they are. -/
theorem isWordOf_append {ds : List Char} (hds : EndsWord ds) :
    IsWordOf x (cs ++ ds) ↔ IsWordOf x cs ∨ IsWordOf x ds := by
  induction cs using word_induction with
  | nil => simp [isWordOf_nil]
  | other c cs hc ih => rw [List.cons_append, isWordOf_cons hc, isWordOf_cons hc, ih]
  | word y cs hy hcs ih =>
    rw [List.append_assoc, isWordOf_word hy (hcs.append hds), isWordOf_word hy hcs, ih, or_assoc]

/-! ### Chunks are words and characters of no word -/

namespace Macros

theorem chunksFrom_done (cs : List Char) (done : List (List Char)) (word : List Char) :
    chunksFrom done word cs = done.reverse ++ chunksFrom [] word cs := by
  induction cs generalizing done word with
  | nil =>
    rw [chunksFrom, chunksFrom, closeWord, closeWord]
    split <;> simp
  | cons c cs ih =>
    rw [chunksFrom, chunksFrom]
    split
    · exact ih done (c :: word)
    · rw [ih, ih ([c] :: closeWord [] word), ← List.append_assoc]
      congr 1
      rw [closeWord, closeWord]
      split <;> simp

/-- The characters of a word are collected backwards. -/
theorem chunksFrom_word {x : List Char} (hx : ∀ c ∈ x, isWordChar c = true) (word cs : List Char) :
    chunksFrom [] word (x ++ cs) = chunksFrom [] (x.reverse ++ word) cs := by
  induction x generalizing word with
  | nil => rfl
  | cons c x ih =>
    rw [List.cons_append, chunksFrom, if_pos (hx c List.mem_cons_self),
      ih fun d hd => hx d (List.mem_cons_of_mem c hd)]
    simp

theorem chunks_nil : chunks [] = [] := rfl

theorem chunks_cons {c : Char} (cs : List Char) (hc : isWordChar c = false) :
    chunks (c :: cs) = [c] :: chunks cs := by
  rw [chunks, chunksFrom, hc, if_neg Bool.false_ne_true, chunksFrom_done]
  rfl

theorem chunks_word {x cs : List Char} (hx : IsWordText x) (hcs : EndsWord cs) :
    chunks (x ++ cs) = x :: chunks cs := by
  have hclose : closeWord [] x.reverse = [x] := by
    rw [closeWord, if_neg (by simpa using hx.1), List.reverse_reverse]
  rw [chunks, chunksFrom_word hx.2, List.append_nil]
  cases cs with
  | nil =>
    rw [chunksFrom, hclose]
    rfl
  | cons c cs =>
    rw [chunksFrom, endsWord_cons.mp hcs, if_neg Bool.false_ne_true, hclose, chunksFrom_done,
      chunks_cons cs (endsWord_cons.mp hcs)]
    rfl

/-- The words of a text are those among its chunks. -/
theorem isWordOf_iff_mem_chunks {x cs : List Char} :
    IsWordOf x cs ↔ IsWordText x ∧ x ∈ chunks cs := by
  induction cs using word_induction with
  | nil => simp [isWordOf_nil, chunks_nil]
  | other c cs hc ih =>
    rw [isWordOf_cons hc, chunks_cons cs hc, List.mem_cons, ih]
    refine and_congr_right fun hx => (or_iff_right ?_).symm
    rintro rfl
    rw [hx.2 c List.mem_cons_self] at hc
    contradiction
  | word y cs hy hcs ih =>
    rw [isWordOf_word hy hcs, chunks_word hy hcs, List.mem_cons, ih]
    constructor
    · rintro (rfl | ⟨hx, hmem⟩)
      · exact ⟨hy, .inl rfl⟩
      · exact ⟨hx, .inr hmem⟩
    · rintro ⟨hx, hmem⟩
      exact hmem.imp_right fun hmem => ⟨hx, hmem⟩

/-! ### Putting a text in place of a word -/

variable {x value : List Char}

theorem replaceWord_nil : replaceWord x value [] = [] := rfl

theorem replaceWord_cons (hx : IsWordText x) {c : Char} (cs : List Char)
    (hc : isWordChar c = false) : replaceWord x value (c :: cs) = c :: replaceWord x value cs := by
  have hne : [c] ≠ x := by
    rintro rfl
    rw [hx.2 c List.mem_cons_self] at hc
    contradiction
  rw [replaceWord, chunks_cons cs hc, List.flatMap_cons, if_neg hne]
  rfl

theorem replaceWord_word {y cs : List Char} (hy : IsWordText y) (hcs : EndsWord cs) :
    replaceWord x value (y ++ cs) = (if y = x then value else y) ++ replaceWord x value cs := by
  rw [replaceWord, chunks_word hy hcs, List.flatMap_cons]
  rfl

theorem endsWord_replaceWord (hx : IsWordText x) {cs : List Char} (hcs : EndsWord cs) :
    EndsWord (replaceWord x value cs) := by
  cases cs with
  | nil => exact endsWord_nil
  | cons c cs =>
    have hc := endsWord_cons.mp hcs
    rw [replaceWord_cons hx cs hc]
    exact endsWord_cons.mpr hc

/-- The words behind a replacement are the other words of the text and, where the name was one, the
words of the value. -/
theorem isWordOf_replaceWord (hx : IsWordText x) {y cs : List Char} :
    IsWordOf y (replaceWord x value cs) ↔
    (IsWordOf y cs ∧ y ≠ x) ∨ (IsWordOf x cs ∧ IsWordOf y value) := by
  induction cs using word_induction with
  | nil => simp [replaceWord_nil, isWordOf_nil]
  | other c cs hc ih =>
    rw [replaceWord_cons hx cs hc, isWordOf_cons hc, ih, isWordOf_cons hc, isWordOf_cons hc]
  | word z cs hz hcs ih =>
    have hends : EndsWord (replaceWord x value cs) := endsWord_replaceWord hx hcs
    rw [replaceWord_word hz hcs, isWordOf_word hz hcs, isWordOf_word hz hcs]
    by_cases hzx : z = x
    · subst hzx
      rw [if_pos rfl, isWordOf_append hends, ih]
      grind
    · rw [if_neg hzx, isWordOf_word hz hends, ih]
      grind

/-- A text without the name stays as it is. -/
theorem replaceWord_of_not (hx : IsWordText x) {cs : List Char} (h : ¬ IsWordOf x cs) :
    replaceWord x value cs = cs := by
  induction cs using word_induction with
  | nil => rfl
  | other c cs hc ih =>
    rw [isWordOf_cons hc] at h
    rw [replaceWord_cons hx cs hc, ih h]
  | word y cs hy hcs ih =>
    rw [isWordOf_word hy hcs, not_or] at h
    rw [replaceWord_word hy hcs, if_neg (Ne.symm h.1), ih h.2]

end Macros

end WordC
