import WordC.Proofs.LabelLedger

/-!
# What a refused statement leaves behind

The compiler can refuse a statement at any depth, with loops half written and labels given out that
will never be placed, and it can be used again afterwards. What is left does no harm: the loops that
are open are those from before, so that a `break` or `continue` is taken as it was, and code and
data have only grown at their ends. The labels in what was added are accounted for, whether the
statement was accepted or not: each was noted before, or got its number on the way. Since numbers
are never given out twice and the text of a label shows its number, no later label can be taken for
one of them.
-/

namespace WordC

open Asm Compile Step

/-! ### Numbers in the texts of labels -/

namespace Asm.Label

variable {n : Nat} {l m : Label}

/-- The text of a label ends with its number. -/
theorem exists_text_eq (h : l.number? = some n) :
    ∃ stem, l.text.toList = stem ++ '_' :: Nat.toDigits 10 n := by
  cases l with
  | minted stem i =>
    obtain rfl : i = n := Option.some.inj h
    exact ⟨_, toList_minted stem i⟩
  | localArray f x i =>
    obtain rfl : i = n := Option.some.inj h
    refine ⟨("array_" ++ f ++ "_" ++ x).toList, ?_⟩
    show ("array_" ++ f ++ "_" ++ x ++ "_" ++ i.repr).toList = _
    rw [String.toList_append, String.toList_append, Nat.toList_repr, List.append_assoc]
    rfl
  | _ => cases h

/-- Labels with different numbers have different texts, whatever they are labels of. -/
theorem text_ne_of_number_ne {i j : Nat} (hl : l.number? = some i) (hm : m.number? = some j)
    (hne : i ≠ j) : l.text ≠ m.text := by
  intro htext
  obtain ⟨s, hs⟩ := exists_text_eq hl
  obtain ⟨t, ht⟩ := exists_text_eq hm
  rw [htext, ht] at hs
  obtain ⟨-, hdigits⟩ :=
    append_cons_inj (underscore_not_mem_digits j) (underscore_not_mem_digits i) hs
  apply hne
  rw [← Nat.ofDigitChars_ten_toDigits (n := i), ← hdigits, Nat.ofDigitChars_ten_toDigits]

end Asm.Label

/-! ### What was added since a state -/

namespace Compiler

/-- Labels that code may use which is added to the state `k` up to the count `b`. -/
def Knows (k : Compiler) (b : Nat) (l : Label) : Prop := k.Notes l ∨ l.NumberedIn k.labelCount b

theorem Knows.mono {k : Compiler} {b b' : Nat} {l : Label} (h : k.Knows b l)
    (hb : b ≤ b') : k.Knows b' l :=
  h.imp_right fun hl => hl.mono (Nat.le_refl _) hb

/-- How a state differs from an earlier one: code and data are longer, and the labels in what was
added are accounted for. -/
structure Since (k c : Compiler) : Prop where
  labels : k.labelCount ≤ c.labelCount
  code : ∃ lines, c.code.toList = k.code.toList ++ lines ∧
    (∀ l ∈ placed lines, l.NumberedIn k.labelCount c.labelCount) ∧
    ∀ l ∈ addressed lines, k.Knows c.labelCount l
  data : ∃ lines, c.data.toList = k.data.toList ++ lines ∧
    ∀ l ∈ placed lines, l.NumberedIn k.labelCount c.labelCount
  notes : ∀ l, c.Notes l → k.Knows c.labelCount l

/-- The same with the labels that may be used, and those with a number that is not placed yet. -/
structure SinceWith (k : Compiler) (known due : List Label) (c : Compiler) :
    Prop extends k.Since c where
  known : ∀ l ∈ known, k.Knows c.labelCount l
  due : ∀ l ∈ due, l.NumberedIn k.labelCount c.labelCount

theorem Since.refl (c : Compiler) : c.Since c where
  labels := Nat.le_refl _
  code := ⟨[], by simp, by simp [placed], by simp [addressed]⟩
  data := ⟨[], by simp, by simp [placed]⟩
  notes _ hl := .inl hl

theorem Since.push {k c : Compiler} (h : k.Since c) {line : Line}
    (hplaced : ∀ l, line.label? = some l → l.NumberedIn k.labelCount c.labelCount)
    (haddressed : ∀ l ∈ line.labels, k.Knows c.labelCount l) :
    k.Since { c with code := c.code.push line } := by
  obtain ⟨lines, hlines, hplaced', haddressed'⟩ := h.code
  refine { h with code := ⟨lines ++ [line], ?_, ?_, ?_⟩ }
  · rw [Array.toList_push, hlines, List.append_assoc]
  · rw [placed_append]
    refine List.forall_mem_append.mpr ⟨hplaced', fun l hl => ?_⟩
    rw [mem_placed_iff, List.mem_singleton] at hl
    exact hplaced l (hl ▸ rfl)
  · rw [addressed_append]
    refine List.forall_mem_append.mpr ⟨haddressed', fun l hl => haddressed l ?_⟩
    simpa [addressed] using hl

/-- A change beside the code. -/
theorem SinceWith.beside {k c c' : Compiler} {known due : List Label} {lines : List Line}
    (h : k.SinceWith known due c) (hc : c.Beside known lines c') :
    k.SinceWith (placed lines ++ known) due c' := by
  have hnumbers : ∀ l ∈ placed lines, l.NumberedIn k.labelCount c'.labelCount := fun l hl =>
    (hc.numbers l hl).mono h.labels (Nat.le_refl _)
  have hknown : ∀ l ∈ placed lines ++ known, k.Knows c'.labelCount l :=
    List.forall_mem_append.mpr
      ⟨fun l hl => .inr (hnumbers l hl), fun l hl => (h.known l hl).mono hc.labels⟩
  refine ⟨⟨Nat.le_trans h.labels hc.labels, ?_, ?_, fun l hl => ?_⟩, hknown, ?_⟩
  · obtain ⟨ls, hls, hplaced, haddressed⟩ := h.code
    refine ⟨ls, hc.code ▸ hls, fun l hl =>
      (hplaced l hl).mono (Nat.le_refl _) hc.labels, fun l hl => ?_⟩
    exact (haddressed l hl).mono hc.labels
  · obtain ⟨ls, hls, hplaced⟩ := h.data
    refine ⟨ls ++ lines, by rw [hc.data, hls, List.append_assoc], ?_⟩
    rw [placed_append]
    exact List.forall_mem_append.mpr
      ⟨fun l hl => (hplaced l hl).mono (Nat.le_refl _) hc.labels, hnumbers⟩
  · rcases hc.notes l hl with hl | hl | hl
    · exact (h.notes l hl).mono hc.labels
    · exact hknown l (List.mem_append_right _ hl)
    · exact hknown l (List.mem_append_left _ hl)
  · exact fun l hl => (h.due l hl).mono (Nat.le_refl _) hc.labels

instance SinceWith.stepRules (k : Compiler) : StepRules k.SinceWith where
  line h hplain hlabels :=
    { h with
      toSince := h.push (by simp [Line.label?_of_isPlain hplain]) fun l hl =>
        h.known l (hlabels l hl) }
  mint {known due c stem} h _ := by
    have hcount : c.Beside known [] { c with labelCount := c.labelCount + 1 } :=
      .quiet rfl rfl (Nat.le_succ _) rfl rfl id fun _ hl => .inl hl
    have hnext : k.SinceWith known due { c with labelCount := c.labelCount + 1 } := h.beside hcount
    have hnew : (Label.minted stem c.labelCount).NumberedIn k.labelCount (c.labelCount + 1) :=
      Label.numberedIn_of_number? rfl h.labels (Nat.lt_succ_self _)
    exact { hnext with
      known := List.forall_mem_cons.mpr ⟨.inr hnew, hnext.known⟩
      due := List.forall_mem_cons.mpr ⟨hnew, hnext.due⟩ }
  place {known front back c l} h := by
    obtain ⟨hfront, hl, hback⟩ : (∀ m ∈ front, _) ∧ _ ∧ ∀ m ∈ back, _ := by
      simpa [or_imp, forall_and] using h.due
    refine { h with
      toSince := h.push ?_ (List.forall_mem_nil _)
      due := List.forall_mem_append.mpr ⟨hfront, hback⟩ }
    simpa [Line.label?] using hl
  know h hl := { h with known := List.forall_mem_cons.mpr ⟨h.notes _ hl, h.known⟩ }
  forget h hsub := { h with known := fun l hl => h.known l (hsub hl) }
  change h hc := h.beside hc

/-- A statement accounts for the labels in what it writes, however deep inside it is refused. -/
theorem Since.statement {k c : Compiler} (h : k.Since c) (s : Stmt) : k.Since (s.compile c).2 := by
  have hstart : k.SinceWith [] [] c := ⟨h, List.forall_mem_nil _, List.forall_mem_nil _⟩
  obtain ⟨_, _, hend⟩ := (s.books_compile c hstart).either
  exact hend.toSince

end Compiler

/-! ### Going on -/

/-- The state behind statements one after the other, each of them accepted or refused. -/
def Compiler.after (c : Compiler) (ss : List Stmt) : Compiler :=
  ss.foldl (fun c s => (s.compile c).2) c

theorem Compiler.Since.after {k c : Compiler} (h : k.Since c) (ss : List Stmt) :
    k.Since (c.after ss) := by
  induction ss generalizing c with
  | nil => exact h
  | cons s ss ih => exact ih (h.statement s)

/-- The lines that were added, with all labels that they place. -/
theorem Compiler.Since.exists_lines {k c : Compiler} (h : k.Since c) :
    ∃ lines data, c.code.toList = k.code.toList ++ lines ∧ c.data.toList = k.data.toList ++ data ∧
    (∀ l ∈ placed (lines ++ data), l.NumberedIn k.labelCount c.labelCount) ∧
      ∀ l ∈ addressed lines, k.Notes l ∨ l.NumberedIn k.labelCount c.labelCount := by
  obtain ⟨lines, hlines, hplaced, haddressed⟩ := h.code
  obtain ⟨data, hdata, hplaced'⟩ := h.data
  refine ⟨lines, data, hlines, hdata, ?_, haddressed⟩
  rw [placed_append]
  exact List.forall_mem_append.mpr ⟨hplaced, hplaced'⟩

theorem Stmt.breakLoop_fst (c : Compiler) :
    (breakLoop.compile c).1 = if c.loops = [] then .error .breakOutside else .ok () := by
  rw [compile, bind_ok (get_apply c)]
  cases c.loops <;> rfl

theorem Stmt.continueLoop_fst (c : Compiler) :
    (continueLoop.compile c).1 = if c.loops = [] then .error .continueOutside else .ok () := by
  rw [compile, bind_ok (get_apply c)]
  cases c.loops <;> rfl

/-- From any state and for any statement, accepted or refused at whatever depth: the open loops are
as before, numbers of labels are not taken back, and code and data have only grown at their ends. A
label that was placed there and has a number got it on the way, and one whose address is taken there
was noted before or got its number on the way. So a `break` or `continue` is answered as before the
statement. Further statements may follow, and labels may be asked for: no label that they place or
get has the text of one whose number was given out up to here. -/
theorem refused_statement_leaves (s : Stmt) (c : Compiler) :
    let c₁ := (s.compile c).2
    c₁.loops = c.loops ∧ c.labelCount ≤ c₁.labelCount ∧
    (∃ lines data, c₁.code.toList = c.code.toList ++ lines ∧ c₁.data.toList = c.data.toList ++
      data ∧ (∀ l ∈ placed (lines ++ data), l.NumberedIn c.labelCount c₁.labelCount) ∧
      ∀ l ∈ addressed lines, c.Notes l ∨ l.NumberedIn c.labelCount c₁.labelCount) ∧
    (Stmt.breakLoop.compile c₁).1 = (Stmt.breakLoop.compile c).1 ∧
    (Stmt.continueLoop.compile c₁).1 = (Stmt.continueLoop.compile c).1 ∧
    ∀ later : List Stmt, ∃ lines data, (c₁.after later).code.toList = c₁.code.toList ++ lines ∧
      (c₁.after later).data.toList = c₁.data.toList ++ data ∧
      ∀ (old new : Label) (i j : Nat), old.number? = some i → i < c₁.labelCount →
      new.number? = some j →
        (new ∈ placed (lines ++ data) ∨ ∃ stem, (mint stem (c₁.after later)).1 = .ok new) →
        new.text ≠ old.text := by
  intro c₁
  have hsince : c.Since c₁ := (Compiler.Since.refl c).statement s
  have hloops : c₁.loops = c.loops := (s.keeps_compile c).loops
  refine ⟨hloops, hsince.labels, hsince.exists_lines, ?_, ?_, fun later => ?_⟩
  · rw [Stmt.breakLoop_fst, Stmt.breakLoop_fst, hloops]
  · rw [Stmt.continueLoop_fst, Stmt.continueLoop_fst, hloops]
  · have hlater : c₁.Since (c₁.after later) := (Compiler.Since.refl c₁).after later
    obtain ⟨lines, data, hlines, hdata, hplaced, -⟩ := hlater.exists_lines
    refine ⟨lines, data, hlines, hdata, fun old new i j hold hi hnew hlabel => ?_⟩
    -- Whichever way the new label came, its number is not below the count at which the statement
    -- ended.
    have hj : c₁.labelCount ≤ j := by
      rcases hlabel with hmem | ⟨stem, hmint⟩
      · exact (hplaced new hmem j hnew).1
      · obtain rfl : Label.minted stem (c₁.after later).labelCount = new := Except.ok.inj hmint
        obtain rfl : (c₁.after later).labelCount = j := Option.some.inj hnew
        exact hlater.labels
    exact Label.text_ne_of_number_ne hnew hold (by omega)

/-- `while (1) for (;;) { uint32 a[2]; x = y; }` -/
def lostInLoops : Stmt :=
  .whileLoop (.literal 1) (.forLoop none none none
    (.block [.decl (.array { name := "a", size := .literal 2 }), .assign "x" (.name "y")]))

/-- Two loops deep the statement is refused, behind two labels of loops and one of an array. Outside
of all loops a `break` is then refused as before, and the next `while` starts at a label of its own.
-/
theorem lostInLoops_leaves :
    let c : Compiler := { current := some "main" }
    let c₁ := (lostInLoops.compile c).2
    (lostInLoops.compile c).1 = .error (.undefinedVariable "y" (some "main")) ∧ c₁.loops = [] ∧
      (Stmt.breakLoop.compile c₁).1 = .error .breakOutside ∧ c₁.labelCount = 5 ∧
      (Label.minted .whileStart 5).text ≠ (Label.minted .whileStart 0).text := by
  intro c c₁
  obtain ⟨hloops, -, -, hbreak, -, hlater⟩ := refused_statement_leaves lostInLoops c
  have hcount : c₁.labelCount = 5 := by decide +kernel
  obtain ⟨lines, data, -, -, hnew⟩ := hlater []
  refine ⟨by decide +kernel, hloops, hbreak.trans (by decide +kernel), hcount, ?_⟩
  exact hnew (.minted .whileStart 0) (.minted .whileStart 5) 0 5 rfl (by rw [hcount]; decide) rfl
    (.inr ⟨.whileStart, by decide +kernel⟩)

end WordC
