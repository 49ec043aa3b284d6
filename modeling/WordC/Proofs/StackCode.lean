import WordC.Proofs.Lowering
import WordC.Proofs.StackHeight

/-!
# The compiler keeps to the heights

Whatever the compiler writes for an expression leaves the stack as high as it was, and for a
statement it starts and ends with nothing on the stack. Loops inside the code of an operator stay at
one height, since the labels of an operator are its own.

The compiler is followed through expressions once and for all: `ExprLayout` lists the lines that
their code is made of, and what holds of these holds of the code of every expression.
-/

namespace WordC

open Asm Compile Step

/-! ### Lines in their place -/

/-- Labels of loops and branches in the code of an operator. -/
def Asm.Stem.isInner : Stem → Bool
  | mulLoop | mulEnd | divLoop | divEnd | divError | divSkip | modLoop | modEnd | modError | modSkip
  | andEnd => true
  | _ => false

theorem Asm.Stem.isBranch_of_isInner (stem : Stem) (h : stem.isInner = true) :
    stem.isBranch = false := by
  cases stem with
  | mulLoop | mulEnd | divLoop | divEnd | divError | divSkip | modLoop | modEnd | modError | modSkip
  | andEnd => rfl
  | _ => cases h

def Asm.Label.isInner : Label → Bool
  | minted stem _ => stem.isInner
  | _ => false

/-- Lines that are not run, or only passed, and start nothing. -/
def Asm.Line.isInert : Line → Bool
  | .label l => !l.isEntry && !l.isBranch && !l.isInner
  | .instr _ => false
  | _ => true

/-- A line of a function that writes variables only below a register. -/
structure Asm.Line.Inside (top : Nat) (l : Line) : Prop where
  entry : ∀ f, f.isEntry = true → l ≠ .label f
  target : ∀ r : Nat, l.target? = some r → r < 11 ∨ link ≤ r ∨ r < top

theorem inside_instr {top : Nat} {i : Instr}
    (hi : ∀ r : Nat, i.target? = some r → r < 11 ∨ link ≤ r ∨ r < top) :
    (Line.instr i).Inside top := ⟨nofun, hi⟩

/-- Lines that keep to their heights wherever they stand: from one height to another, if the labels
of operators before them have smaller numbers. -/
structure Fits (h : Int) (m : Nat) (ls : List Line) (h' : Int) (m' : Nat) : Prop where
  le : m ≤ m'
  inner : ∀ stem n, stem.isInner = true → .label (.minted stem n) ∈ ls → m ≤ n ∧ n < m'
  ends : ∀ code pos, Placed code pos ls → height code pos = h → height code (pos + ls.length) = h'
  kept : ∀ code pos, Placed code pos ls → height code pos = h →
    (∀ stem n, stem.isInner = true → m ≤ n → .label (.minted stem n) ∉ code.take pos) →
    ∀ p l, pos ≤ p → p < pos + ls.length → code[p]? = some l → Kept code p l

namespace Fits

variable {m m' m₁ m₂ : Nat} {h h' h₁ h₂ : Int} {xs ys : List Line}

theorem nil (hm : m ≤ m') : Fits h m [] h m' where
  le := hm
  inner _ _ _ hl := absurd hl List.not_mem_nil
  ends _ _ _ hh := hh
  kept _ _ _ _ _ _ _ hp hp' _ := absurd hp' (Nat.not_lt_of_le hp)

theorem append (hxs : Fits h m xs h₁ m₁) (hys : Fits h₁ m₁ ys h₂ m₂) :
    Fits h m (xs ++ ys) h₂ m₂ where
  le := Nat.le_trans hxs.le hys.le
  inner stem n hstem hl := by
    have hle := hxs.le
    have hle' := hys.le
    rcases List.mem_append.mp hl with hl | hl
    · obtain ⟨hm, hn⟩ := hxs.inner stem n hstem hl
      exact ⟨hm, by omega⟩
    · obtain ⟨hm, hn⟩ := hys.inner stem n hstem hl
      exact ⟨by omega, hn⟩
  ends code pos hplaced hh := by
    obtain ⟨hpx, hpy⟩ := hplaced.append
    rw [List.length_append, ← Nat.add_assoc]
    exact hys.ends code _ hpy (hxs.ends code pos hpx hh)
  kept code pos hplaced hh hfree p l hp hp' hl := by
    obtain ⟨hpx, hpy⟩ := hplaced.append
    have hfree' : ∀ stem n, stem.isInner = true → m₁ ≤ n →
        .label (.minted stem n) ∉ code.take (pos + xs.length) := by
      intro stem n hstem hn hmem
      rw [List.take_add, ← List.prefix_iff_eq_take.mp hpx] at hmem
      rcases List.mem_append.mp hmem with hmem | hmem
      · exact hfree stem n hstem (Nat.le_trans hxs.le hn) hmem
      · have hlt := (hxs.inner stem n hstem hmem).2
        omega
    rw [List.length_append, ← Nat.add_assoc] at hp'
    by_cases hpx' : p < pos + xs.length
    · exact hxs.kept code pos hpx hh hfree p l hp hpx' hl
    · exact hys.kept code _ hpy (hxs.ends code pos hpx hh) hfree' p l (Nat.le_of_not_lt hpx') hp' hl

/-- One line, which keeps to its height wherever it stands. -/
theorem single {l : Line} (hinner : ∀ stem n, l = .label (.minted stem n) → stem.isInner = false)
    (hkept : ∀ code p, height code p = h → Kept code p l)
    (hshift : ∀ before, h + l.shift before = h') : Fits h m [l] h' m where
  le := Nat.le_refl m
  inner stem n hstem hl := by
    rw [hinner stem n (List.mem_singleton.mp hl).symm] at hstem
    cases hstem
  ends code pos hplaced hh := by rw [List.length_singleton, height_succ hplaced.head, hh, hshift]
  kept code pos hplaced hh _ p l' hp hp' hl := by
    obtain rfl : p = pos := Nat.le_antisymm (Nat.le_of_lt_succ hp') hp
    cases hplaced.head.symm.trans hl
    exact hkept code p hh

end Fits

/-- Lines of a function that writes variables only below a register. -/
structure Body (top : Nat) (h : Int) (m : Nat) (ls : List Line) (h' : Int) (m' : Nat) :
    Prop extends Fits h m ls h' m' where
  inside : ∀ l ∈ ls, l.Inside top

namespace Body

variable {top m m' m₁ m₂ : Nat} {h h' h₁ h₂ : Int} {xs ys : List Line}

theorem nil (hm : m ≤ m') : Body top h m [] h m' := ⟨.nil hm, List.forall_mem_nil _⟩

theorem append (hxs : Body top h m xs h₁ m₁) (hys : Body top h₁ m₁ ys h₂ m₂) :
    Body top h m (xs ++ ys) h₂ m₂ :=
  ⟨hxs.toFits.append hys.toFits,
    fun l hl => (List.mem_append.mp hl).elim (hxs.inside l) (hys.inside l)⟩

theorem single {l : Line} (hinside : l.Inside top)
    (hinner : ∀ stem n, l = .label (.minted stem n) → stem.isInner = false)
    (hkept : ∀ code p, height code p = h → Kept code p l)
    (hshift : ∀ before, h + l.shift before = h') : Body top h m [l] h' m :=
  ⟨.single hinner hkept hshift, List.forall_mem_singleton.mpr hinside⟩

theorem inert {l : Line} (hl : l.isInert = true) : Body top h m [l] h m := by
  cases l with
  | instr i => cases hl
  | label f =>
    obtain ⟨⟨hentry, hbranch⟩, hinner⟩ :
        (f.isEntry = false ∧ f.isBranch = false) ∧ f.isInner = false := by
      simpa [Line.isInert] using hl
    refine single ⟨?_, nofun⟩ ?_ (fun code p _ => .rest (fun _ => Line.noConfusion) ?_)
      fun before => Int.add_zero h
    · rintro g hg heq
      cases heq
      rw [hentry] at hg
      cases hg
    · rintro stem n heq
      cases heq
      exact hinner
    · rintro g heq hg
      cases heq
      simp [hentry, hbranch] at hg
  | comment | verbatim | word | directive | blank =>
    refine single ⟨fun _ _ => Line.noConfusion, nofun⟩ (fun _ _ => Line.noConfusion)
      (fun code p _ => ?_) fun _ => Int.add_zero h
    exact .rest (fun _ => Line.noConfusion) fun _ => Line.noConfusion

/-- An instruction that writes a register other than those of the stack and of jumps. -/
theorem instr {i : Instr}
    (hi : ∀ r : Nat, i.target? = some r → r < 11 ∨ r = link ∨ r < top ∧ top ≤ sp) :
    Body top h m [.instr i] h m := by
  have hplain : i.Plain := by
    intro r hr
    have hlt : (r : Nat) < 30 := by
      rcases hi r hr with hlt | heq | ⟨hlt, hle⟩
      · exact Nat.lt_trans hlt (by decide)
      · exact heq ▸ (by decide)
      · exact Nat.lt_of_lt_of_le hlt hle
    exact ⟨Nat.ne_of_lt hlt, Nat.ne_of_lt (Nat.lt_succ_of_lt hlt)⟩
  refine single (inside_instr fun r hr => ?_) nofun (fun code p _ => .plain hplain) fun before => ?_
  · rcases hi r hr with hlt | heq | ⟨hlt, -⟩
    · exact .inl hlt
    · exact .inr (.inl (Nat.le_of_eq heq.symm))
    · exact .inr (.inr hlt)
  · rw [Cpu.shift_of_plain hplain, Int.add_zero]

theorem push (r : Reg) : Body top h m [pushLine, .instr (.store sp r)] (h + 1) m := by
  have hpush : pushLine.Inside top := inside_instr fun r hr => by
    cases hr; exact .inr (.inl (by decide))
  have hstore : Body top (h + 1) m [.instr (.store sp r)] (h + 1) m := instr nofun
  exact (single hpush nofun (fun code p _ => .push) fun before => rfl).append hstore

theorem drop {n : Reg} (hn : n < 10) (k : Int) :
    Body top h m [constLine n k, dropLine n] (h - k) m where
  le := Nat.le_refl m
  inside := by
    have hconst : (constLine n k).Inside top := inside_instr fun r hr => by
      cases hr; exact .inl (Nat.lt_succ_of_lt hn)
    have hdrop : (dropLine n).Inside top := inside_instr fun r hr => by
      cases hr; exact .inr (.inl (by decide))
    simpa using ⟨hconst, hdrop⟩
  inner := by simp
  ends code pos hplaced hh := by
    show height code (pos + 1 + 1) = h - k
    rw [height_succ hplaced.tail.head, lineBefore_succ hplaced.head, height_succ hplaced.head, hh]
    simp [Line.shift, Int.sub_eq_add_neg]
  kept code pos hplaced hh _ p l hp hp' hl := by
    have hip : n ≠ ip := Nat.ne_of_lt (Nat.lt_trans hn (by decide))
    have hsp : n ≠ sp := Nat.ne_of_lt (Nat.lt_trans hn (by decide))
    obtain rfl | rfl : p = pos ∨ p = pos + 1 := by simp at hp'; omega
    · cases hplaced.head.symm.trans hl
      exact .plain fun r hr => by cases hr; exact ⟨hsp, hip⟩
    · cases hplaced.tail.head.symm.trans hl
      exact .drop (lineBefore_succ hplaced.head) hip

theorem call {f : Label} (hf : f.isEntry = true) : Body top h m [callLine f] (h - 1) m := by
  have hcall : (callLine f).Inside top := inside_instr fun r hr => by
    cases hr; exact .inr (.inl (by decide))
  refine single hcall nofun (fun code p _ => .call hf) fun before => ?_
  simp [Line.shift, hf, Int.sub_eq_add_neg]

theorem leave : Body top 0 m [.instr (.load link sp), popLine, returnLine] 0 m := by
  have hinside {i : Instr} {r : Reg} (hi : i.target? = some r) (hr : link ≤ r) :
      (Line.instr i).Inside top :=
    inside_instr fun r' hr' => by cases hi.symm.trans hr'; exact .inr (.inl hr)
  have hload : Body top 0 m [.instr (.load link sp)] 0 m := instr fun r hr => by
    cases hr; exact .inr (.inl rfl)
  have hpop : Body top 0 m [popLine] (-1) m :=
    single (hinside rfl (by decide)) nofun (fun code p _ => .pop) fun before => rfl
  have hback : Body top (-1) m [returnLine] 0 m :=
    single (hinside rfl (by decide)) nofun (fun code p hh => .back hh) fun before => rfl
  exact hload.append (hpop.append hback)

/-! Branches of statements, which have nothing on the stack. -/

theorem branchLabel {l : Label} (hl : l.isBranch = true) : Body top 0 m [.label l] 0 m := by
  cases l with
  | minted stem n =>
    refine single ⟨?_, nofun⟩ ?_
      (fun code p hh => .rest (fun _ => Line.noConfusion) fun _ _ _ => hh) fun before => rfl
    · rintro f hf heq
      cases heq
      cases hf
    · rintro stem' n' heq
      cases heq
      by_contra hinner
      rw [Label.isBranch, stem.isBranch_of_isInner (Bool.not_eq_false _ ▸ hinner)] at hl
      cases hl
  | _ => cases hl

theorem isEntry_of_isBranch {l : Label} (hl : l.isBranch = true) : l.isEntry = false := by
  cases l with
  | minted => rfl
  | _ => cases hl

theorem inside_jump {line : Line} {l : Label} (hline : line.jumpsTo? = some l) :
    line.Inside top := by
  obtain rfl | ⟨c, rfl | rfl⟩ := line.jump_cases hline
  all_goals exact inside_instr fun r hr => by cases hr; exact .inr (.inl (by decide))

theorem branchJump {line : Line} {l : Label} (hline : line.jumpsTo? = some l)
    (hl : l.isBranch = true) : Body top 0 m [line] 0 m := by
  have hentry := isEntry_of_isBranch hl
  refine single (inside_jump hline) ?_ (fun code p hh => .jump hline hentry (.inl ⟨hl, hh⟩))
    fun before => ?_
  · rintro stem n rfl
    cases hline
  · rw [Cpu.shift_of_jump hline hentry]
    rfl

end Body

/-! ### The code of an operator -/

/-- A line of the code of an operator which has taken the next `labels` label numbers: it writes
temporaries, places a label of these, or jumps to one of the labels that the operator places. -/
inductive OperatorLine (m labels : Nat) (placed : List Label) : Line → Prop
  | put {i : Instr} {r : Reg} : i.target? = some r → r < 10 →
      OperatorLine m labels placed (.instr i)
  | label {stem : Stem} {n : Nat} : stem.isInner = true → n < labels →
      OperatorLine m labels placed (.label (.minted stem (m + n)))
  | jump {l : Line} {stem : Stem} {n : Nat} :
      l.jumpsTo? = some (.minted stem (m + n)) → stem.isInner = true →
      .minted stem (m + n) ∈ placed → OperatorLine m labels placed l

/-- The end of the lines can be reached from one of them, over lines that go on and jumps to labels
among them. -/
inductive Crosses (ls : List Line) : Nat → Prop
  | ends : Crosses ls ls.length
  | next {i : Nat} {l : Line} : ls[i]? = some l → l.isJump = false →
      Crosses ls (i + 1) → Crosses ls i
  | jump {i j : Nat} {l : Line} {a : Label} :
      ls[i]? = some l → l.jumpsTo? = some a → ls.idxOf (.label a) = j → Crosses ls j →
      Crosses ls i

theorem Crosses.straight {ls : List Line} {i : Nat} (n : Nat)
    (hn : ((ls.drop i).take n).all (!·.isJump) = true) (hlength : i + n ≤ ls.length)
    (h : Crosses ls (i + n)) : Crosses ls i := by
  induction n generalizing i with
  | zero => exact h
  | succ n ih =>
    have hi : i < ls.length := by omega
    rw [List.drop_eq_getElem_cons hi, List.take_succ_cons, List.all_cons, Bool.and_eq_true] at hn
    refine .next (List.getElem?_eq_getElem hi) (by simpa using hn.1) (ih hn.2 (by omega) ?_)
    rwa [Nat.add_right_comm, Nat.add_assoc]

namespace OperatorLine

variable {m labels : Nat} {placed : List Label} {l : Line}

theorem plain {i : Instr} {r : Reg} (hi : i.target? = some r) (hr : r < 10) : i.Plain := by
  intro r' hr'
  cases hi.symm.trans hr'
  exact ⟨Nat.ne_of_lt (Nat.lt_trans hr (by decide)), Nat.ne_of_lt (Nat.lt_trans hr (by decide))⟩

theorem shift_eq (h : OperatorLine m labels placed l) (before : Line) : l.shift before = 0 := by
  cases h with
  | put hi hr => exact Cpu.shift_of_plain (plain hi hr) before
  | label => rfl
  | jump hjump => exact Cpu.shift_of_jump hjump rfl before

theorem inside (h : OperatorLine m labels placed l) (top : Nat) : l.Inside top := by
  cases h with
  | put hi hr =>
    refine inside_instr fun r' hr' => ?_
    cases hi.symm.trans hr'
    exact .inl (Nat.lt_succ_of_lt hr)
  | label =>
    refine ⟨?_, nofun⟩
    rintro f hf heq
    cases heq
    cases hf
  | jump hjump => exact Body.inside_jump hjump

/-- The code of an operator stays at one height. -/
theorem height_eq {code ls : List Line} {pos j : Nat} {h : Int}
    (hls : ∀ l ∈ ls, OperatorLine m labels placed l) (hplaced : Placed code pos ls)
    (hh : height code pos = h) (hj : j ≤ ls.length) : height code (pos + j) = h := by
  induction j with
  | zero => exact hh
  | succ j ih =>
    rw [← Nat.add_assoc, height_succ (hplaced.get hj), ih (Nat.le_of_succ_le hj),
      (hls _ (List.getElem_mem hj)).shift_eq, Int.add_zero]

end OperatorLine

theorem Body.operator {top m labels : Nat} {h : Int} {placed : List Label} {ls : List Line}
    (hls : ∀ l ∈ ls, OperatorLine m labels placed l) (hplacedAll : ∀ l ∈ placed, .label l ∈ ls) :
    Body top h m ls h (m + labels) where
  le := Nat.le_add_right _ _
  inside l hl := (hls l hl).inside top
  inner stem n hstem hl := by
    cases hls _ hl with
    | label _ hlt => exact ⟨Nat.le_add_right _ _, Nat.add_lt_add_left hlt _⟩
    | jump hjump => cases hjump
  ends code pos hplaced hh := OperatorLine.height_eq hls hplaced hh (Nat.le_refl _)
  kept code pos hplaced hh hfree p l hp hp' hl := by
    obtain ⟨j, rfl⟩ := Nat.exists_eq_add_of_le hp
    have hj : j < ls.length := by omega
    cases (hplaced.get hj).symm.trans hl
    have hkind := hls _ (List.getElem_mem hj)
    generalize ls[j] = line at hkind
    cases hkind with
    | put hi hr => exact .plain (OperatorLine.plain hi hr)
    | @label stem n hstem =>
      refine .rest (fun _ => Line.noConfusion) fun l heq hl => ?_
      cases heq
      simp [Label.isEntry, Label.isBranch, stem.isBranch_of_isInner hstem] at hl
    | @jump _ stem n hjump hstem hmem =>
      refine .jump hjump rfl (.inr ?_)
      rw [hplaced.lineOf_eq (hplacedAll _ hmem) (hfree stem _ hstem (Nat.le_add_right _ _)),
        OperatorLine.height_eq hls hplaced hh List.idxOf_le_length,
        OperatorLine.height_eq hls hplaced hh (Nat.le_of_lt hj)]

/-! ### What the code of expressions is made of -/

/-- A statement about lines between two heights of the stack and two numbers of labels. -/
abbrev Asm.Layout := Int → Nat → List Line → Int → Nat → Prop

/-- Instructions that write no register and go on. -/
def Asm.Instr.isQuiet : Instr → Bool
  | store _ _ => true
  | device op _ => !op.delivers
  | _ => false

/-- A statement that holds of the lines that the code of an expression is made of. -/
class ExprLayout (S : Layout) : Prop where
  nil {h m m'} : m ≤ m' → S h m [] h m'
  append {h h₁ h₂ m m₁ m₂ xs ys} : S h m xs h₁ m₁ → S h₁ m₁ ys h₂ m₂ → S h m (xs ++ ys) h₂ m₂
  put {h m d} {i : Instr} : i.target? = some d → d < 10 → S h m [.instr i] h m
  quiet {h m} {i : Instr} : i.isQuiet = true → S h m [.instr i] h m
  /-- The label that a call comes back to. -/
  back {h m} (n : Nat) : S h m [.label (.minted .retAddr n)] h m
  push {h m} (r : Reg) : S h m [pushLine, .instr (.store sp r)] (h + 1) m
  drop {h m n} (k : Int) : n < 10 → S h m [constLine n k, dropLine n] (h - k) m
  call {h m} {f : Label} : f.isEntry = true → S h m [callLine f] (h - 1) m
  operator {h m labels placed ls} : (∀ l ∈ ls, OperatorLine m labels placed l) →
    (∀ l ∈ placed, .label l ∈ ls) → Crosses ls 0 → S h m ls h (m + labels)

theorem Asm.Instr.target?_of_isQuiet {i : Instr} (h : i.isQuiet = true) : i.target? = none := by
  cases i with
  | store => rfl
  | device op r => exact if_neg (by simpa [isQuiet] using h)
  | _ => cases h

instance Body.exprLayout (top : Nat) : ExprLayout (Body top) where
  nil := .nil
  append := .append
  put hi hd := .instr fun r hr => by cases hi.symm.trans hr; exact .inl (Nat.lt_succ_of_lt hd)
  quiet hi := .instr fun r hr => by cases (Instr.target?_of_isQuiet hi).symm.trans hr
  back _ := .inert rfl
  push := .push
  drop k hn := .drop hn k
  call := .call
  operator hls hplaced _ := .operator hls hplaced

/-! ### Steps of the compiler -/

namespace RegPool

theorem skip_allocated (p : RegPool) (n : Nat) : (p.skip n).allocated = p.allocated := by
  induction n with
  | zero => rfl
  | succ n ih => exact ih

theorem tempAvoiding_skip (avoid : List Reg) (tries : Nat) (p : RegPool) :
    ∃ n, p.tempAvoiding avoid tries = (p.nth n, p.skip (n + 1)) := by
  induction tries generalizing p with
  | zero => exact ⟨0, rfl⟩
  | succ tries ih =>
    show ∃ n, (if p.temp.1 ∈ avoid then p.temp.2.tempAvoiding avoid tries else p.temp) =
      (p.nth n, p.skip (n + 1))
    split
    · obtain ⟨n, hn⟩ := ih p.temp.2
      refine ⟨1 + n, ?_⟩
      rw [hn, nth, nth, Nat.add_assoc, ← skip_skip p 1 n, ← skip_skip p 1 (n + 1)]
      rfl
    · exact ⟨0, rfl⟩

end RegPool

theorem Compiler.tempAvoiding_draws (c : Compiler) (n k : Nat) (ls : List Line) (avoid : List Reg) :
    ∃ i, tempAvoiding avoid (c.wrote n k ls) = (.ok (c.pool.nth i), c.wrote (i + 1) k ls) := by
  obtain ⟨i, hi⟩ := (c.pool.skip n).tempAvoiding_skip avoid 9
  refine ⟨n + i, ?_⟩
  show (Except.ok ((c.pool.skip n).tempAvoiding avoid 9).1,
    { c.wrote n k ls with pool := ((c.pool.skip n).tempAvoiding avoid 9).2 }) = _
  rw [hi, RegPool.nth, RegPool.nth, RegPool.skip_skip, RegPool.skip_skip, ← Nat.add_assoc]
  rfl

/-- The compiler but for what the code of an expression changes. -/
def Compiler.rest (k : Compiler) : Compiler :=
  { k with pool := { k.pool with nextTemp := 1 }, labelCount := 0, code := #[] }

/-- What the compiler relies on. `A` is what else is known of it. -/
structure Compiler.Ready (A : Compiler → Prop) (k : Compiler) : Prop where
  turning : k.pool.nextTemp < 10
  functions : ∀ f l, k.functions.get? f = some l → l = functionLabel f
  other : A k.rest

theorem Compiler.rest_wrote (k : Compiler) (draws labels : Nat) (ls : List Line) :
    (k.wrote draws labels ls).rest = k.rest := by
  show ({ k with pool := ⟨(k.pool.skip draws).allocated, 1⟩, labelCount := 0, code := #[] } :
    Compiler) = k.rest
  rw [RegPool.skip_allocated]
  rfl

theorem Compiler.Ready.wrote {A : Compiler → Prop} {k : Compiler} (hk : k.Ready A)
    (draws labels : Nat) (ls : List Line) : (k.wrote draws labels ls).Ready A where
  turning := RegPool.skip_lt hk.turning draws
  functions := hk.functions
  other := (k.rest_wrote draws labels ls).symm ▸ hk.other

namespace Compile

variable {α β : Type} {A : Compiler → Prop} {S : Layout} [ExprLayout S] {h h₁ h₂ : Int}

/-- A step that ends in a value writes lines from one height to another, and the value satisfies
`P`. -/
def Lays (A : Compiler → Prop) (S : Layout) (h : Int) (x : Compile α) (h' : Int)
    (P : α → Prop) : Prop :=
  ∀ k a k', k.Ready A → x k = (.ok a, k') → k'.Ready A ∧ P a ∧
    ∃ ls, k'.code.toList = k.code.toList ++ ls ∧ S h k.labelCount ls h' k'.labelCount

/-- A step that ends at the height it starts at, with any value. -/
abbrev Stays (A : Compiler → Prop) (S : Layout) (h : Int) (x : Compile α) : Prop :=
  Lays A S h x h fun _ => True

variable {P : α → Prop} {x : Compile α} {d : Nat}

theorem lays_bind {f : α → Compile β} {Q : β → Prop} (hx : Lays A S h x h₁ P)
    (hf : ∀ a, P a → Lays A S h₁ (f a) h₂ Q) : Lays A S h (x >>= f) h₂ Q := by
  intro k b k' hk hrun
  obtain ⟨a, k₁, hxk, hfk⟩ := bind_eq_ok hrun
  obtain ⟨hk₁, ha, xs, hxs, hfits⟩ := hx k a k₁ hk hxk
  obtain ⟨hk', hb, ys, hys, hfits'⟩ := hf a ha k₁ b k' hk₁ hfk
  exact ⟨hk', hb, xs ++ ys, by rw [hys, hxs, List.append_assoc], ExprLayout.append hfits hfits'⟩

theorem lays_then {y : Compile β} {Q : β → Prop} (hx : Lays A S h x h₁ P)
    (hy : Lays A S h₁ y h₂ Q) : Lays A S h (x >>= fun _ => y) h₂ Q := lays_bind hx fun _ _ => hy

theorem lays_pure {a : α} (ha : P a) : Lays A S h (pure a) h P := by
  intro k b k' hk hrun
  cases hrun
  exact ⟨hk, ha, [], (List.append_nil _).symm, ExprLayout.nil (Nat.le_refl _)⟩

theorem lays_return (a : α) : Stays A S h (pure a) := lays_pure trivial

omit [ExprLayout S] in
theorem lays_throw (e : CompileError) : Lays A S h (throw e : Compile α) h₁ P :=
  fun _ _ _ _ hrun => nomatch hrun

theorem lays_get : Lays A S h get h (Compiler.Ready A) := by
  intro k a k' hk hrun
  cases hrun
  exact ⟨hk, hk, [], (List.append_nil _).symm, ExprLayout.nil (Nat.le_refl _)⟩

omit [ExprLayout S] in
theorem lays_ite {p : Prop} [Decidable p] {y : Compile α} (hx : Lays A S h x h₁ P)
    (hy : Lays A S h y h₁ P) : Lays A S h (if p then x else y) h₁ P := by
  split
  · exact hx
  · exact hy

omit [ExprLayout S] in
theorem lays_weaken {Q : α → Prop} (hx : Lays A S h x h₁ P) (hPQ : ∀ a, P a → Q a) :
    Lays A S h x h₁ Q := by
  intro k a k' hk hrun
  obtain ⟨hk', ha, hlines⟩ := hx k a k' hk hrun
  exact ⟨hk', hPQ a ha, hlines⟩

/-- A change of the compiler that writes nothing. -/
theorem lays_silent (hx : ∀ k a k', k.Ready A → x k = (.ok a, k') →
    k'.Ready A ∧ P a ∧ k'.code = k.code ∧ k.labelCount ≤ k'.labelCount) : Lays A S h x h P := by
  intro k a k' hk hrun
  obtain ⟨hk', ha, hcode, hle⟩ := hx k a k' hk hrun
  exact ⟨hk', ha, [], by rw [hcode, List.append_nil], ExprLayout.nil hle⟩

omit [ExprLayout S] in
theorem lays_line {l : Line} (hl : ∀ m, S h m [l] h₁ m) : Lays A S h (line l) h₁ fun _ => True := by
  intro k a k' hk hrun
  cases hrun
  exact ⟨⟨hk.turning, hk.functions, hk.other⟩, trivial, [l], by simp, hl k.labelCount⟩

theorem lays_inert {top : Nat} {l : Line} (hl : l.isInert = true) : Stays A (Body top) h (line l) :=
  lays_line fun _ => .inert hl

theorem lays_put {i : Instr} (hi : i.target? = some d) (hd : d < 10) : Stays A S h (emit i) :=
  lays_line fun _ => ExprLayout.put hi hd

theorem lays_quiet {i : Instr} (hi : i.isQuiet = true) : Stays A S h (emit i) :=
  lays_line fun _ => ExprLayout.quiet hi

theorem lays_temp : Lays A S h temp h (· < 10) := by
  refine lays_silent fun k a k' hk hrun => ?_
  cases hrun
  exact ⟨⟨k.pool.temp_snd_lt, hk.functions, hk.other⟩, RegPool.nth_lt hk.turning 0,
    rfl, Nat.le_refl _⟩

theorem lays_tempAvoiding (avoid : List Reg) : Lays A S h (tempAvoiding avoid) h (· < 10) := by
  refine lays_silent fun k a k' hk hrun => ?_
  obtain ⟨n, hdraw⟩ := Compiler.tempAvoiding_draws k 0 0 [] avoid
  rw [Compiler.wrote_nothing] at hdraw
  cases hdraw.symm.trans hrun
  exact ⟨hk.wrote _ _ _, RegPool.nth_lt hk.turning n, by simp [Compiler.wrote], Nat.le_refl _⟩

theorem lays_mint (stem : Stem) : Lays A S h (mint stem) h fun l => ∃ n, l = .minted stem n := by
  refine lays_silent fun k a k' hk hrun => ?_
  rw [Compiler.mint_eq] at hrun
  cases hrun
  exact ⟨hk.wrote _ _ _, ⟨_, rfl⟩, by simp [Compiler.wrote], Nat.le_succ _⟩

theorem lays_currentFunction : Stays A S h currentFunction :=
  lays_bind lays_get fun _ _ => lays_return _

theorem lays_move (hd : d < 10) (r : Reg) : Stays A S h (move d r) :=
  lays_ite (lays_put rfl hd) (lays_return ())

/-! ### Operators -/

theorem lays_flagFor (hd : d < 10) (l r : Reg) : Lays A S h (flagFor d l r) h (· < 10) :=
  lays_ite lays_temp (lays_pure hd)

section Operators

variable {d : Nat} (hd : d < 10) (l r : Reg)

include hd

theorem lays_flagTest (op : CmpOp) (onZero : Bool) : Stays A S h (flagTest op onZero d l r) := by
  refine lays_bind (lays_flagFor hd l r) fun flag hflag => lays_then (lays_put rfl hflag) ?_
  refine lays_bind lays_temp fun ones hones => lays_then (lays_put rfl hones) ?_
  cases onZero <;> exact lays_then (lays_put rfl hd) (lays_put rfl hd)

theorem lays_less : Stays A S h (less d l r) := by
  refine lays_ite ?_ ?_
  · refine lays_bind lays_temp fun flag hflag => lays_then (lays_put rfl hflag) ?_
    refine lays_bind (lays_tempAvoiding _) fun one hone => lays_then (lays_put rfl hd) ?_
    exact lays_then (lays_put rfl hone) (lays_put rfl hd)
  · refine lays_then (lays_put rfl hd) (lays_bind (lays_tempAvoiding _) fun spare _ => ?_)
    exact lays_bind (lays_tempAvoiding _) fun one hone =>
      lays_then (lays_put rfl hone) (lays_put rfl hd)

theorem lays_lessEqual : Stays A S h (lessEqual d l r) := by
  refine lays_bind lays_temp fun flag hflag => lays_then (lays_put rfl hflag) ?_
  refine lays_bind lays_temp fun one hone => lays_bind lays_temp fun z hz => ?_
  exact lays_then (lays_put rfl hone)
    (lays_then (lays_put rfl hz) (lays_then (lays_put rfl hd) (lays_put rfl hd)))

theorem lays_greaterEqual : Stays A S h (greaterEqual d l r) := by
  refine lays_bind (lays_tempAvoiding _) fun flag hflag => lays_then (lays_put rfl hflag) ?_
  refine lays_bind (lays_tempAvoiding _) fun one hone => lays_then (lays_put rfl hd) ?_
  exact lays_then (lays_put rfl hone) (lays_put rfl hd)

theorem lays_logicalOr : Stays A S h (logicalOr d l r) := by
  refine lays_bind lays_temp fun z hz =>
    lays_then (lays_put rfl hz) (lays_then (lays_put rfl hd) ?_)
  refine lays_bind lays_temp fun one hone =>
    lays_then (lays_put rfl hone) (lays_then (lays_put rfl hd) ?_)
  exact lays_then (lays_put rfl hone) (lays_put rfl hd)

omit hd in
/-- The code of an operator that has labels of its own, as one piece. -/
theorem lays_of_wrote {x : Compile Unit} (hx : ∀ k : Compiler, (∀ n, k.pool.nth n < 10) →
      ∃ draws labels ls, x (k.wrote 0 0 []) = (.ok (), k.wrote draws labels ls) ∧
      ∃ placed, (∀ line ∈ ls, OperatorLine k.labelCount labels placed line) ∧
      (∀ l ∈ placed, .label l ∈ ls) ∧ Crosses ls 0) :
    Stays A S h x := by
  intro k a k' hk hrun
  obtain ⟨draws, labels, ls, hwrote, placed, hls, hplaced, hcrosses⟩ :=
    hx k (RegPool.nth_lt hk.turning)
  rw [Compiler.wrote_nothing] at hwrote
  cases hwrote.symm.trans hrun
  exact ⟨hk.wrote _ _ _, trivial, ls, by simp [Compiler.wrote],
    ExprLayout.operator hls hplaced hcrosses⟩

theorem lays_mul : Stays A S h (mul d l r) := by
  refine lays_of_wrote fun k ht => ?_
  simp only [mul, bind_apply, Compiler.temp_wrote, Compiler.emit_wrote, Compiler.mint_wrote,
    Compiler.place_wrote, jump, jumpIfZero]
  refine ⟨_, _, _, rfl, [.minted .mulLoop (k.labelCount + 0), .minted .mulEnd (k.labelCount + 1)],
    ?_, by simp, ?_⟩
  all_goals simp only [List.nil_append, List.cons_append]
  · simp only [List.forall_mem_cons]
    exact ⟨.put rfl (ht _), .put rfl (ht _), .put rfl hd, .label rfl (by decide), .put rfl (ht _),
      .jump rfl rfl (by simp), .put rfl hd, .put rfl (ht _), .put rfl (ht _),
      .jump rfl rfl (by simp), .label rfl (by decide), List.forall_mem_nil _⟩
  · exact .straight 5 rfl (by simp)
      (.jump rfl rfl (by simp) (.straight (i := 10) 1 rfl (by simp) .ends))

theorem lays_div : Stays A S h (div d l r) := by
  refine lays_of_wrote fun k ht => ?_
  simp only [div, bind_apply, Compiler.temp_wrote, Compiler.emit_wrote, Compiler.mint_wrote,
    Compiler.place_wrote, jump, jumpIfZero, jumpIfNonzero]
  refine ⟨_, _, _, rfl, [.minted .divLoop (k.labelCount + 0), .minted .divEnd (k.labelCount + 1),
    .minted .divError (k.labelCount + 2), .minted .divSkip (k.labelCount + 3)], ?_, by simp, ?_⟩
  all_goals simp only [List.nil_append, List.cons_append]
  · simp only [List.forall_mem_cons]
    exact ⟨.put rfl (ht _), .put rfl (ht _), .put rfl hd, .put rfl (ht _), .jump rfl rfl (by simp),
      .label rfl (by decide), .put rfl (ht _), .put rfl (ht _), .jump rfl rfl (by simp),
      .put rfl (ht _), .put rfl (ht _), .put rfl hd, .jump rfl rfl (by simp),
      .label rfl (by decide), .jump rfl rfl (by simp), .label rfl (by decide), .put rfl hd,
      .label rfl (by decide), List.forall_mem_nil _⟩
  · exact .straight 4 rfl (by simp)
      (.jump rfl rfl (by simp) (.straight (i := 15) 3 rfl (by simp) .ends))

theorem lays_mod : Stays A S h (mod d l r) := by
  refine lays_of_wrote fun k ht => ?_
  simp only [mod, bind_apply, Compiler.temp_wrote, Compiler.emit_wrote, Compiler.mint_wrote,
    Compiler.place_wrote, jump, jumpIfZero, jumpIfNonzero]
  refine ⟨_, _, _, rfl, [.minted .modLoop (k.labelCount + 0), .minted .modEnd (k.labelCount + 1),
    .minted .modError (k.labelCount + 2), .minted .modSkip (k.labelCount + 3)], ?_, by simp, ?_⟩
  all_goals simp only [List.nil_append, List.cons_append]
  · simp only [List.forall_mem_cons]
    exact ⟨.put rfl (ht _), .put rfl (ht _), .put rfl (ht _), .jump rfl rfl (by simp), .label rfl
      (by decide), .put rfl (ht _), .put rfl (ht _), .jump rfl rfl (by simp), .put rfl (ht _),
      .jump rfl rfl (by simp), .label rfl (by decide), .put rfl hd, .jump rfl rfl (by simp),
      .label rfl (by decide), .put rfl hd, .label rfl (by decide), List.forall_mem_nil _⟩
  · exact .straight 3 rfl (by simp)
      (.jump rfl rfl (by simp) (.straight (i := 13) 3 rfl (by simp) .ends))

theorem lays_logicalAnd : Stays A S h (logicalAnd d l r) := by
  refine lays_of_wrote fun k ht => ?_
  have hdraw := Compiler.tempAvoiding_draws k
  rw [logicalAnd]
  obtain ⟨z, hz⟩ := hdraw 0 0 [] [l, r, d]
  rw [bind_ok hz, bind_ok (Compiler.emit_wrote ..), bind_ok (Compiler.emit_wrote ..),
    bind_ok (Compiler.mint_wrote ..)]
  obtain ⟨flag, hflag⟩ := hdraw _ _ _ [l, r, d, k.pool.nth z]
  rw [bind_ok hflag, bind_ok (Compiler.emit_wrote ..), jumpIfNonzero,
    bind_ok (Compiler.emit_wrote ..)]
  obtain ⟨flag', hflag'⟩ := hdraw _ _ _ [l, r, d, k.pool.nth z, k.pool.nth flag]
  rw [bind_ok hflag', bind_ok (Compiler.emit_wrote ..), jumpIfNonzero,
    bind_ok (Compiler.emit_wrote ..)]
  obtain ⟨one, hone⟩ := hdraw _ _ _ [l, r, d, k.pool.nth z, k.pool.nth flag, k.pool.nth flag']
  rw [bind_ok hone, bind_ok (Compiler.emit_wrote ..), bind_ok (Compiler.emit_wrote ..), jump,
    bind_ok (Compiler.emit_wrote ..), Compiler.place_wrote]
  refine ⟨_, _, _, rfl, [.minted .andEnd (k.labelCount + 0)], ?_, by simp, ?_⟩
  all_goals simp only [List.nil_append, List.cons_append]
  · simp only [List.forall_mem_cons]
    exact ⟨.put rfl (ht _), .put rfl hd, .put rfl (ht _), .jump rfl rfl (by simp), .put rfl (ht _),
      .jump rfl rfl (by simp), .put rfl (ht _), .put rfl hd, .jump rfl rfl (by simp),
      .label rfl (by decide), List.forall_mem_nil _⟩
  · exact .straight 8 rfl (by simp)
      (.jump rfl rfl (by simp) (.straight (i := 9) 1 rfl (by simp) .ends))

theorem lays_binary (op : BinOp) : Stays A S h (binary op d l r) := by
  cases op with
  | add | sub | bitAnd | bitOr | bitXor | shiftLeft | shiftRight => exact lays_put rfl hd
  | mul => exact lays_mul hd l r
  | div => exact lays_div hd l r
  | mod => exact lays_mod hd l r
  | equal | notEqual | greater => exact lays_flagTest hd l r _ _
  | less => exact lays_less hd l r
  | lessEqual => exact lays_lessEqual hd l r
  | greaterEqual => exact lays_greaterEqual hd l r
  | logicalAnd => exact lays_logicalAnd hd l r
  | logicalOr => exact lays_logicalOr hd l r

theorem lays_unary (op : UnaryOp) (a : Reg) : Stays A S h (unary op d a) := by
  cases op with
  | logicalNot =>
    refine lays_bind lays_temp fun z hz =>
      lays_then (lays_put rfl hz) (lays_then (lays_put rfl hd) ?_)
    refine lays_bind lays_temp fun ones hones => lays_then (lays_put rfl hones) ?_
    exact lays_then (lays_put rfl hd) (lays_put rfl hd)
  | complement => exact lays_put rfl hd
  | negate => exact lays_bind lays_temp fun z hz => lays_then (lays_put rfl hz) (lays_put rfl hd)

end Operators

/-! ### Expressions -/

theorem lays_loadLabel (l : Label) : Stays A S h (loadLabel l) := by
  refine lays_bind lays_temp fun d hd => lays_bind lays_temp fun a ha => ?_
  exact lays_then (lays_put rfl ha) (lays_then (lays_put rfl hd) (lays_return d))

theorem lays_registerOf? (x : String) : Stays A S h (registerOf? x) := by
  refine lays_bind lays_get fun k _ => ?_
  split
  · exact lays_return _
  · split
    · split
      · exact lays_return _
      · exact lays_throw _
    · exact lays_return _

theorem lays_name (x : String) : Stays A S h (name x) := by
  refine lays_bind lays_get fun k _ => ?_
  split
  · exact lays_loadLabel _
  · refine lays_bind (lays_registerOf? x) fun r _ => ?_
    split
    · exact lays_return _
    · exact lays_bind lays_currentFunction fun _ _ => lays_throw _

theorem lays_push (r : Reg) : Lays A S h (push r) (h + 1) fun _ => True := by
  intro k a k' hk hrun
  rw [push, bind_ok (Compiler.emit_eq _ _), Compiler.emit_wrote] at hrun
  cases hrun
  exact ⟨hk.wrote _ _ _, trivial, _, by simp [Compiler.wrote], ExprLayout.push r⟩

/-- Takes a call's arguments off the stack. -/
theorem lays_drop (count : Nat) : Lays A S h (do
    let n ← temp
    emit (.mov n (.imm count))
    emit (.alu .add sp sp (.reg n))) (h - count) fun _ => True := by
  intro k a k' hk hrun
  rw [bind_ok (Compiler.temp_eq _), bind_ok (Compiler.emit_wrote ..), Compiler.emit_wrote] at hrun
  cases hrun
  exact ⟨hk.wrote _ _ _, trivial, _, by simp [Compiler.wrote],
    ExprLayout.drop count (RegPool.nth_lt hk.turning 0)⟩

theorem lays_callPushed {t : Nat} (ht : t < 10) {target : Label} (htarget : target.isEntry = true)
    (count : Nat) : Lays A S (h + count) (callPushed t target count) h fun _ => True := by
  have hcalled : Lays A S (h + count + 1) (jump target) (h + count) fun _ => True := by
    refine lays_line fun m => ?_
    have hfits : S (h + count + 1) m [callLine target] (h + count + 1 - 1) m :=
      ExprLayout.call htarget
    rwa [Int.add_sub_cancel] at hfits
  have hvalue : Stays A S h (do
      let d ← temp
      move d result
      return d) :=
    lays_bind lays_temp fun d hd => lays_then (lays_move hd result) (lays_return d)
  refine lays_bind (lays_mint _) fun back hback =>
    lays_then (lays_put rfl ht) (lays_then (lays_push t) ?_)
  obtain ⟨n, rfl⟩ := hback
  refine lays_then hcalled (lays_then (lays_line fun _ => ExprLayout.back n) ?_)
  show Lays A S (h + count) (if count > 0 then _ else _) h fun _ => True
  split
  · have hdrop : Lays A S (h + count) _ (h + count - count) fun _ => True := lays_drop count
    rw [Int.add_sub_cancel] at hdrop
    have hcleared := lays_then hdrop hvalue
    simp only [bind_assoc] at hcleared
    exact hcleared
  · obtain rfl : count = 0 := by omega
    have hsame : h + (0 : Nat) = h := Int.add_zero h
    rw [hsame]
    exact hvalue

theorem lays_device (hd : d < 10) (f : String) (args : List Reg) :
    Stays A S h (device d f args) := by
  unfold device
  split
  · refine lays_bind lays_temp fun t ht =>
      lays_then (lays_put rfl ht) (lays_bind lays_temp fun u hu => ?_)
    refine lays_then (lays_put rfl hu)
      (lays_then (lays_put rfl ht) (lays_then (lays_put rfl ht) ?_))
    exact lays_then (lays_quiet rfl) (lays_put rfl hd)
  · exact lays_put rfl hd
  · refine lays_bind lays_temp fun t ht =>
      lays_then (lays_put rfl ht) (lays_then (lays_put rfl ht) ?_)
    exact lays_then (lays_quiet rfl) (lays_put rfl hd)
  · exact lays_then (lays_quiet rfl) (lays_put rfl hd)
  · exact lays_put rfl hd
  · exact lays_then (lays_quiet rfl) (lays_put rfl hd)
  · exact lays_bind lays_currentFunction fun _ _ => lays_throw _

theorem lays_indexLabel (a : String) (p : ArrayPlace) : Stays A S h (indexLabel a p) := by
  cases p with
  | label l => exact lays_return l
  | number n => exact lays_throw _

theorem lays_arrayLabel (a : String) (p : ArrayPlace) : Stays A S h (arrayLabel a p) := by
  cases p with
  | label l => exact lays_return l
  | number n => exact lays_bind lays_currentFunction fun _ _ => lays_throw _

theorem lays_elementAddress (hd : d < 10) (l : Label) (i : Reg) :
    Stays A S h (elementAddress d l i) :=
  lays_then (lays_put rfl hd) (lays_put rfl hd)

theorem lays_loadElement (a : String) (i : Reg) : Stays A S h (loadElement a i) := by
  refine lays_bind lays_get fun k _ => ?_
  split
  · refine lays_bind lays_temp fun d hd => lays_bind lays_temp fun t ht =>
      lays_bind (lays_indexLabel a _) fun l _ => ?_
    exact lays_then (lays_elementAddress ht l i) (lays_then (lays_put rfl hd) (lays_return d))
  · exact lays_throw _

theorem lays_addressOfElement (hd : d < 10) (a : String) (i : Reg) :
    Stays A S h (addressOfElement d a i) := by
  refine lays_bind lays_get fun k _ => ?_
  split
  · refine lays_bind lays_temp fun t ht => lays_bind (lays_indexLabel a _) fun l _ => ?_
    exact lays_then (lays_elementAddress ht l i) (lays_put rfl hd)
  · exact lays_throw _

theorem lays_addressOfName (hd : d < 10) (x : String) : Stays A S h (addressOfName d x) := by
  refine lays_bind lays_get fun k _ => ?_
  split
  · exact lays_put rfl hd
  · refine lays_then (lays_put rfl hd) (lays_ite ?_ (lays_return ()))
    exact lays_bind lays_temp fun t ht => lays_then (lays_put rfl ht) (lays_put rfl hd)
  · split
    · exact lays_bind (lays_arrayLabel x _) fun l _ => lays_put rfl hd
    · exact lays_throw _

end Compile

theorem isEntry_functionLabel (f : String) : (functionLabel f).isEntry = true := by
  unfold functionLabel
  split <;> rfl

namespace Expr

variable {A : Compiler → Prop} {S : Layout} [ExprLayout S] {h : Int}

theorem lays_compileAll {es : List Expr} (hes : ∀ e ∈ es, ∀ h, Stays A S h e.compile) :
    Stays A S h (compileAll es) := by
  induction es with
  | nil =>
    rw [compileAll]
    exact lays_return []
  | cons e es ih =>
    obtain ⟨he, hes⟩ := List.forall_mem_cons.mp hes
    rw [compileAll]
    exact lays_bind (he h) fun r _ => lays_bind (ih hes) fun rs _ => lays_return (r :: rs)

/-- Each argument is worked out with those behind it on the stack. -/
theorem lays_pushAll {t : Nat} (ht : t < 10) {es : List Expr}
    (hes : ∀ e ∈ es, ∀ h, Stays A S h e.compile) :
    Lays A S h (pushAll t es) (h + es.length) fun _ => True := by
  induction es with
  | nil =>
    have hsame : h + (0 : Nat) = h := Int.add_zero h
    rw [pushAll, List.length_nil, hsame]
    exact lays_return ()
  | cons e es ih =>
    obtain ⟨he, hes⟩ := List.forall_mem_cons.mp hes
    have hnext : h + (es.length + 1 : Nat) = h + es.length + 1 := by omega
    rw [pushAll, List.length_cons, hnext]
    refine lays_then (ih hes) (lays_bind (he _) fun r _ => ?_)
    exact lays_then (lays_move ht r) (lays_push t)

theorem lays_addressOf {e : Expr} (hindex : ∀ a i, e = .index a i → ∀ h, Stays A S h i.compile)
    (hderef : ∀ d, e = .deref d → ∀ h, Stays A S h d.compile) :
    Lays A S h (addressOf e).compile h fun _ => True := by
  cases e with
  | name x =>
    rw [compile]
    exact lays_bind lays_temp fun d hd => lays_then (lays_addressOfName hd x) (lays_return d)
  | index a i =>
    rw [compile]
    refine lays_bind lays_temp fun d hd => lays_bind (hindex a i rfl h) fun r _ => ?_
    exact lays_then (lays_addressOfElement hd a r) (lays_return d)
  | deref e =>
    rw [compile]
    exact lays_then lays_temp (hderef e rfl h)
  | _ =>
    rw [compile]
    · exact lays_then lays_temp (lays_bind lays_currentFunction fun _ _ => lays_throw _)
    all_goals
      intros
      contradiction

/-- The code of an expression leaves the stack as high as it was, and writes no variable. -/
theorem lays_compile (e : Expr) : ∀ h, Stays A S h e.compile := by
  induction e using Expr.address_induction with
  | literal n =>
    intro h
    rw [compile]
    exact lays_bind lays_temp fun d hd => lays_then (lays_put rfl hd) (lays_return d)
  | name x =>
    intro h
    rw [compile]
    exact lays_name x
  | index a i ih =>
    intro h
    rw [compile]
    exact lays_bind (ih h) fun r _ => lays_loadElement a r
  | addressOf e ihindex ihderef => exact fun h => lays_addressOf ihindex ihderef
  | deref e ih =>
    intro h
    rw [compile]
    refine lays_bind (ih h) fun a _ => lays_bind lays_temp fun d hd => ?_
    exact lays_then (lays_put rfl hd) (lays_return d)
  | unary op e ih =>
    intro h
    rw [compile]
    refine lays_bind (ih h) fun a _ => lays_bind lays_temp fun d hd => ?_
    exact lays_then (lays_unary hd op a) (lays_return d)
  | binary op l r ihl ihr =>
    intro h
    rw [compile]
    refine lays_bind (ihl h) fun l _ => lays_bind (ihr h) fun r _ =>
      lays_bind lays_temp fun d hd => ?_
    exact lays_then (lays_binary hd l r op) (lays_return d)
  | call f args ih =>
    intro h
    rw [compile]
    refine lays_bind lays_get fun k hk => ?_
    split
    · next target htarget =>
      have hentry : target.isEntry = true := hk.functions f target htarget ▸ isEntry_functionLabel f
      refine lays_bind lays_temp fun t ht => lays_then (lays_pushAll ht ih) ?_
      exact lays_callPushed ht hentry args.length
    · refine lays_bind lays_temp fun d hd => ?_
      split
      · exact lays_bind lays_currentFunction fun _ _ => lays_throw _
      · refine lays_ite (lays_throw _) (lays_bind (lays_compileAll ih) fun regs _ => ?_)
        exact lays_then (lays_device hd f regs) (lays_return d)
  | foreignUnary op e ih =>
    intro h
    rw [compile]
    refine lays_then (ih h) (lays_then lays_temp ?_)
    exact lays_bind lays_currentFunction fun _ _ => lays_throw _
  | foreignBinary op l r ihl ihr =>
    intro h
    rw [compile]
    refine lays_then (ihl h) (lays_then (ihr h) (lays_then lays_temp ?_))
    exact lays_bind lays_currentFunction fun _ _ => lays_throw _
  | hole =>
    intro h
    rw [compile]
    exact lays_bind lays_currentFunction fun _ _ => lays_throw _

end Expr

end WordC
