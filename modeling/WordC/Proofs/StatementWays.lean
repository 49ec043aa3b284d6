import WordC.Proofs.CodeWays

/-!
# Ways through the code of statements

A statement can be left in three ways other than by a return: at its end, to the exit of the loop
around it and to the next round of that loop. Which of them it has can be told from its form.
`Lowers.routes` says that these are the lines that the ways through its code lead to, no more and no
less.
-/

namespace WordC

open Asm Compile Step

/-! ### Ways out of a statement -/

/-- The ways in which a statement can be left other than by a return. -/
structure Exits where
  ends : Bool
  breaks : Bool
  continues : Bool
  deriving DecidableEq

namespace Exits

/-- Only the end. -/
def atEnd : Exits := ⟨true, false, false⟩

/-- Statements one behind the other. -/
def andThen (x y : Exits) : Exits :=
  ⟨x.ends && y.ends, x.breaks || x.ends && y.breaks, x.continues || x.ends && y.continues⟩

/-- One of two statements. -/
def either (x y : Exits) : Exits :=
  ⟨x.ends || y.ends, x.breaks || y.breaks, x.continues || y.continues⟩

end Exits

mutual

/-- The ways out of a statement, if its conditions may hold or not and every call comes back. -/
def Stmt.exits : Stmt → Exits
  | ifThen _ s => s.exits.either .atEnd
  | ifElse _ s t => s.exits.either t.exits
  | whileLoop _ _ => .atEnd
  | doWhile s _ => ⟨s.exits.ends || s.exits.continues || s.exits.breaks, false, false⟩
  | forLoop _ c _ s => ⟨c.isSome || s.exits.breaks, false, false⟩
  | block ss => Stmt.exitsAll ss
  | ret _ => ⟨false, false, false⟩
  | breakLoop => ⟨false, true, false⟩
  | continueLoop => ⟨false, false, true⟩
  | decl _ | assign _ _ | assignIndex _ _ _ | assignDeref _ _ | call _ | increment _ _
  | decrement _ _ | asm _ | hole => .atEnd

def Stmt.exitsAll : List Stmt → Exits
  | [] => .atEnd
  | s :: ss => s.exits.andThen (Stmt.exitsAll ss)

end

/-! ### The lines they lead to -/

/-- A label that code from `a` to `b` may jump to, and that is not in it. -/
structure Target (code : List Line) (a b : Nat) (l : Label) : Prop where
  entry : l.isEntry = false
  outside : lineOf code l < a ∨ b ≤ lineOf code l

def Targets (code : List Line) (loops : List LoopLabels) (a b : Nat) : Prop :=
  ∀ l, loops.head? = some l → Target code a b l.exit ∧ Target code a b l.next

/-- The lines that the ways out into the loop around lead to. -/
def Exits.Jumps (x : Exits) (code : List Line) (loops : List LoopLabels) (q : Nat) : Prop :=
  ∃ l, loops.head? = some l ∧
    (x.breaks = true ∧ q = lineOf code l.exit ∨ x.continues = true ∧ q = lineOf code l.next)

def Exits.Out (x : Exits) (code : List Line) (loops : List LoopLabels) (behind q : Nat) : Prop :=
  x.ends = true ∧ q = behind ∨ x.Jumps code loops q

/-- Lines that are left in the given ways, wherever they stand. -/
structure Routes (x : Exits) (loops : List LoopLabels) (m : Nat) (ls : List Line) (m' : Nat) :
    Prop extends Numbered m ls m' where
  leaves : ∀ code pos, Stands code pos m ls → Targets code loops pos (pos + ls.length) →
    Leaves code pos (pos + ls.length) (x.Out code loops (pos + ls.length))

section Targets

variable {code : List Line} {loops : List LoopLabels} {a a' b b' q : Nat} {x y : Exits}

theorem Target.narrow {l : Label} (h : Target code a b l) (ha : a ≤ a') (hb : b' ≤ b) :
    Target code a' b' l :=
  ⟨h.entry, by have := h.outside; omega⟩

theorem Targets.narrow (h : Targets code loops a b) (ha : a ≤ a') (hb : b' ≤ b) :
    Targets code loops a' b' :=
  fun l hl => ⟨(h l hl).1.narrow ha hb, (h l hl).2.narrow ha hb⟩

theorem Targets.outside (h : Targets code loops a b) (hq : x.Jumps code loops q) :
    q < a ∨ b ≤ q := by
  obtain ⟨l, hl, ⟨-, rfl⟩ | ⟨-, rfl⟩⟩ := hq
  · exact (h l hl).1.outside
  · exact (h l hl).2.outside

theorem Exits.jumps_of_false (hb : x.breaks = false) (hc : x.continues = false) :
    ¬x.Jumps code loops q := by
  rintro ⟨l, -, ⟨h, -⟩ | ⟨h, -⟩⟩
  · exact Bool.false_ne_true (hb.symm.trans h)
  · exact Bool.false_ne_true (hc.symm.trans h)

theorem Exits.jumps_either : (x.either y).Jumps code loops q ↔
    x.Jumps code loops q ∨ y.Jumps code loops q := by
  simp only [Jumps, either, Bool.or_eq_true]
  constructor
  · rintro ⟨l, hl, ⟨h | h, hq⟩ | ⟨h | h, hq⟩⟩
    · exact .inl ⟨l, hl, .inl ⟨h, hq⟩⟩
    · exact .inr ⟨l, hl, .inl ⟨h, hq⟩⟩
    · exact .inl ⟨l, hl, .inr ⟨h, hq⟩⟩
    · exact .inr ⟨l, hl, .inr ⟨h, hq⟩⟩
  · rintro (⟨l, hl, ⟨h, hq⟩ | ⟨h, hq⟩⟩ | ⟨l, hl, ⟨h, hq⟩ | ⟨h, hq⟩⟩)
    · exact ⟨l, hl, .inl ⟨.inl h, hq⟩⟩
    · exact ⟨l, hl, .inr ⟨.inl h, hq⟩⟩
    · exact ⟨l, hl, .inl ⟨.inr h, hq⟩⟩
    · exact ⟨l, hl, .inr ⟨.inr h, hq⟩⟩

theorem Exits.jumps_andThen : (x.andThen y).Jumps code loops q ↔
    x.Jumps code loops q ∨ x.ends = true ∧ y.Jumps code loops q := by
  simp only [Jumps, andThen, Bool.or_eq_true, Bool.and_eq_true]
  constructor
  · rintro ⟨l, hl, ⟨h | ⟨he, h⟩, hq⟩ | ⟨h | ⟨he, h⟩, hq⟩⟩
    · exact .inl ⟨l, hl, .inl ⟨h, hq⟩⟩
    · exact .inr ⟨he, l, hl, .inl ⟨h, hq⟩⟩
    · exact .inl ⟨l, hl, .inr ⟨h, hq⟩⟩
    · exact .inr ⟨he, l, hl, .inr ⟨h, hq⟩⟩
  · rintro (⟨l, hl, ⟨h, hq⟩ | ⟨h, hq⟩⟩ | ⟨he, l, hl, ⟨h, hq⟩ | ⟨h, hq⟩⟩)
    · exact ⟨l, hl, .inl ⟨.inl h, hq⟩⟩
    · exact ⟨l, hl, .inr ⟨.inl h, hq⟩⟩
    · exact ⟨l, hl, .inl ⟨.inr ⟨he, h⟩, hq⟩⟩
    · exact ⟨l, hl, .inr ⟨.inr ⟨he, h⟩, hq⟩⟩

theorem Exits.ends_either : (x.either y).ends = true ↔ x.ends = true ∨ y.ends = true :=
  Bool.or_eq_true_iff ..

theorem Exits.ends_andThen : (x.andThen y).ends = true ↔ x.ends = true ∧ y.ends = true :=
  Bool.and_eq_true_iff ..

theorem Exits.ends_atEnd : Exits.atEnd.ends = true := rfl

/-- Inside a loop. -/
theorem Exits.out_cons {l : LoopLabels} {behind : Nat} :
    x.Out code (l :: loops) behind q ↔ x.ends = true ∧ q = behind ∨
    x.breaks = true ∧ q = lineOf code l.exit ∨ x.continues = true ∧ q = lineOf code l.next := by
  simp [Out, Jumps]

end Targets

/-! ### Labels and lines of a statement -/

section Lines

variable {m m' n pos : Nat} {code xs ys : List Line} {stem : Stem}

namespace Numbered

theorem nil (hm : m ≤ m') : Numbered m [] m' := ⟨hm, fun _ _ hmem => absurd hmem List.not_mem_nil⟩

theorem widen {a b : Nat} (h : Numbered a xs b) (ha : m ≤ a) (hb : b ≤ m') : Numbered m xs m' where
  le := by have := h.le; omega
  labels stem n hmem hstem := by have := h.labels stem n hmem hstem; omega

/-- Parts with numbers in a range, in any order. -/
theorem both (hxs : Numbered m xs m') (hys : Numbered m ys m') : Numbered m (xs ++ ys) m' where
  le := hxs.le
  labels stem n hmem hstem :=
    (List.mem_append.mp hmem).elim (hxs.labels stem n · hstem) (hys.labels stem n · hstem)

theorem line {l : Line} (hl : ∀ stem n, l ≠ .label (.minted stem n)) (h : Numbered m xs m') :
    Numbered m (l :: xs) m' where
  le := h.le
  labels stem n hmem hstem :=
    h.labels stem n ((List.mem_cons.mp hmem).resolve_left (hl stem n).symm) hstem

theorem instr (i : Instr) (h : Numbered m xs m') : Numbered m (.instr i :: xs) m' :=
  h.line fun _ _ heq => by cases heq

theorem label (hm : m ≤ n) (hn : n < m') (h : Numbered m xs m') :
    Numbered m (.label (.minted stem n) :: xs) m' where
  le := h.le
  labels stem' n' hmem hstem := by
    rcases List.mem_cons.mp hmem with heq | hmem
    · cases heq
      exact ⟨hm, hn⟩
    · exact h.labels stem' n' hmem hstem

end Numbered

theorem leaves_label {l : Label} (h : code[pos]? = some (.label l)) :
    Leaves code pos (pos + 1) (· = pos + 1) :=
  .line fun _ => moves_goesOn h trivial

theorem leaves_jump {l : Label} (h : code[pos]? = some (jumpLine l)) (hl : l.isEntry = false) :
    Leaves code pos (pos + 1) (· = lineOf code l) := .line fun _ => moves_jump h hl

/-- A condition with the jump behind it. -/
theorem Crossing.leaves_exit {r : Reg} {l : Label} (h : Crossing m xs m')
    (hstands : Stands code pos m (xs ++ exitLine r l :: ys))
    (hl : lineOf code l < pos ∨ pos + xs.length + 1 ≤ lineOf code l) : Leaves code pos
    (pos + xs.length + 1) (fun q => q = pos + xs.length + 1 ∨ q = lineOf code l) := by
  have hexit := (hstands.behind h.toNumbered).head
  refine (h.leaves code pos hstands.front).prepend (.line fun q => moves_branch (.inl hexit))
    (by omega) (by omega) ?_
  rintro q (rfl | rfl)
  · omega
  · omega

end Lines

/-! ### The constructs -/

namespace Routes

variable {x y : Exits} {loops : List LoopLabels} {m m' m₁ m₂ m₃ n n' : Nat}
  {xs ys cs bs : List Line} {r : Reg}

theorem of_crossing (h : Crossing m xs m') : Routes .atEnd loops m xs m' where
  toNumbered := h.toNumbered
  leaves code pos hstands _ := by
    refine (h.leaves code pos hstands).congr fun q => ?_
    have hno : ¬Exits.atEnd.Jumps code loops q := Exits.jumps_of_false rfl rfl
    simp only [Exits.Out, Exits.ends_atEnd, true_and, hno, or_false]

theorem seq (hxs : Routes x loops m xs m₁) (hys : Routes y loops m₁ ys m₂) :
    Routes (x.andThen y) loops m (xs ++ ys) m₂ where
  toNumbered := hxs.toNumbered.append hys.toNumbered
  leaves code pos hstands htargets := by
    rw [List.length_append, ← Nat.add_assoc] at htargets ⊢
    have hx := hxs.leaves code pos hstands.front (htargets.narrow (Nat.le_refl _) (by omega))
    have hy := hys.leaves code _ (hstands.behind hxs.toNumbered)
      (htargets.narrow (by omega) (Nat.le_refl _))
    have houtside {q : Nat} (hq : (x.andThen y).Jumps code loops q) := htargets.outside hq
    simp only [Exits.jumps_andThen] at houtside
    refine hx.append (fun _ => hy) (by omega) (by omega) (fun q => ?_) fun q hq => ?_
    · simp only [Exits.Out, Exits.jumps_andThen, Exits.ends_andThen]
      rcases Nat.eq_zero_or_pos ys.length with hnil | hpos
      · -- the second statement writes nothing, and its ways out are the end alone
        rw [hnil, Nat.add_zero] at hy ⊢
        have hiff := hy.nil_iff (q := q)
        have hiff' := hy.nil_iff (q := pos + xs.length)
        simp only [Exits.Out] at hiff hiff'
        grind
      · have hmid : ¬x.Jumps code loops (pos + xs.length) := fun h => by
          have := houtside (.inl h); omega
        have hne : x.Jumps code loops q → q ≠ pos + xs.length := fun h => by
          have := houtside (.inl h); omega
        grind
    · rcases hq with ⟨-, rfl⟩ | hq
      · exact .inr (Nat.le_refl _)
      · exact htargets.outside hq

/-- A body that may be skipped. -/
theorem ifThen {done : Label} (hdone : done = .minted .endIf n) (hn : m₁ ≤ n ∧ n < m₂)
    (hcs : Crossing m cs m₁) (hbs : Routes x loops m₂ bs m₃) :
    Routes (x.either .atEnd) loops m (cs ++ exitLine r done :: (bs ++ [.label done])) m₃ where
  toNumbered := by
    have hle := hcs.le
    have hle' := hbs.le
    subst hdone
    refine .both (hcs.widen (Nat.le_refl _) (by omega)) (.instr _ ?_)
    exact .both (hbs.widen (by omega) (Nat.le_refl _))
      (.label (by omega) (by omega) (.nil (by omega)))
  leaves code pos hstands htargets := by
    have hle := hcs.le
    have hbody := (hstands.behind hcs.toNumbered).next.mono (show m₁ ≤ m₂ by omega)
    have hline : lineOf code done = pos + cs.length + 1 + bs.length := by
      subst hdone
      have hcs' := hcs.not_mem .endIf _ Stem.noConfusion (Or.inr hn.1)
      have hbs' := hbs.not_mem .endIf _ Stem.noConfusion (Or.inl hn.2)
      rw [Stands.lineOf_eq (m := m) (cs ++ exitLine r _ :: bs) []
        (by simpa using hstands) Stem.noConfusion (by omega) (by simp [hcs', hbs', exitLine])]
      simp only [List.length_append, List.length_cons]
      omega
    have hend : (cs ++ exitLine r done :: (bs ++ [.label done])).length =
        cs.length + 1 + bs.length + 1 := by
      simp only [List.length_append, List.length_cons, List.length_nil]
      omega
    simp only [hend, ← Nat.add_assoc] at htargets ⊢
    have htest := hcs.leaves_exit hstands (by omega)
    have hinner := hbs.leaves code _ hbody.front (htargets.narrow (by omega) (by omega))
    rw [hline] at htest
    have houtside {q : Nat} (hq : x.Jumps code loops q) := htargets.outside hq
    have hlabel := (hbody.behind hbs.toNumbered).head
    refine (htest.skip hinner (leaves_label hlabel) (by omega) (by omega) ?_).congr fun q => ?_
    · rintro q (⟨-, rfl⟩ | hq)
      · exact .inl rfl
      · exact .inr (houtside hq)
    · have hno : ¬Exits.atEnd.Jumps code loops q := Exits.jumps_of_false rfl rfl
      have hne : x.Jumps code loops q → q ≠ pos + cs.length + 1 + bs.length := fun h => by
        have := houtside h; omega
      simp only [Exits.Out, Exits.ends_either, Exits.jumps_either, Exits.ends_atEnd]
      grind

/-- One of two bodies. -/
theorem ifElse {other done : Label} (hother : other = .minted .elseBranch n)
    (hdone : done = .minted .endIf n') (hn : m₁ ≤ n ∧ n < m₂) (hn' : m₁ ≤ n' ∧ n' < m₂)
    (hcs : Crossing m cs m₁) (hbs : Routes x loops m₂ bs m₃) (hys : Routes y loops m₃ ys m') :
    Routes (x.either y) loops m
      (cs ++ exitLine r other :: (bs ++ jumpLine done :: .label other :: (ys ++ [.label done]))) m'
      where
  toNumbered := by
    have hle := hcs.le
    have hle' := hbs.le
    have hle'' := hys.le
    subst hother hdone
    refine .both (hcs.widen (Nat.le_refl _) (by omega))
      (.instr _ (.both (hbs.widen (by omega) (by omega)) (.instr _ ?_)))
    refine .label (by omega) (by omega) (.both (hys.widen (by omega) (Nat.le_refl _)) ?_)
    exact .label (by omega) (by omega) (.nil (by omega))
  leaves code pos hstands htargets := by
    have hle := hcs.le
    have hle' := hbs.le
    have hlineOther : lineOf code other = pos + cs.length + 1 + bs.length + 1 := by
      subst hother
      have hcs' := hcs.not_mem .elseBranch _ Stem.noConfusion (Or.inr hn.1)
      have hbs' := hbs.not_mem .elseBranch _ Stem.noConfusion (Or.inl hn.2)
      rw [Stands.lineOf_eq (m := m) (cs ++ exitLine r _ :: (bs ++ [jumpLine done]))
        (ys ++ [.label done]) (by simpa using hstands) Stem.noConfusion (by omega)
        (by simp [hcs', hbs', exitLine, jumpLine])]
      simp only [List.length_append, List.length_cons, List.length_nil]
      omega
    have hline : lineOf code done = pos + cs.length + 1 + bs.length + 1 + 1 + ys.length := by
      subst hother hdone
      have hcs' := hcs.not_mem .endIf _ Stem.noConfusion (Or.inr hn'.1)
      have hbs' := hbs.not_mem .endIf _ Stem.noConfusion (Or.inl hn'.2)
      have hys' := hys.not_mem .endIf _ Stem.noConfusion (Or.inl (Nat.lt_of_lt_of_le hn'.2 hle'))
      rw [Stands.lineOf_eq (m := m) (cs ++ exitLine r _ :: (bs ++ jumpLine _ :: .label _ :: ys)) []
        (by simpa using hstands) Stem.noConfusion (by omega)
        (by simp [hcs', hbs', hys', exitLine, jumpLine])]
      simp only [List.length_append, List.length_cons]
      omega
    have hend : (cs ++ exitLine r other ::
          (bs ++ jumpLine done :: .label other :: (ys ++ [.label done]))).length =
        cs.length + 1 + bs.length + 1 + 1 + ys.length + 1 := by
      simp only [List.length_append, List.length_cons, List.length_nil]
      omega
    simp only [hend, ← Nat.add_assoc] at htargets ⊢
    have houtside {z : Exits} {q : Nat} (hq : z.Jumps code loops q) := htargets.outside hq
    have hbody := (hstands.behind hcs.toNumbered).next.mono (show m₁ ≤ m₂ by omega)
    have hjump := hbody.behind hbs.toNumbered
    have hsecond := hjump.next.tail fun stem i heq => by
      rw [hother] at heq
      cases heq
      omega
    have htest := hcs.leaves_exit hstands (by omega)
    rw [hlineOther] at htest
    have hthen := hbs.leaves code _ hbody.front (htargets.narrow (by omega) (by omega))
    have helse := hys.leaves code _ hsecond.front (htargets.narrow (by omega) (by omega))
    have hfirst : Leaves code (pos + cs.length + 1) (pos + cs.length + 1 + bs.length + 1) fun q =>
        x.ends = true ∧ q = pos + cs.length + 1 + bs.length + 1 + 1 + ys.length ∨
        x.Jumps code loops q := by
      refine hthen.snoc (hline ▸ leaves_jump hjump.head (hdone ▸ rfl)) (by omega)
        (by omega) fun q hq => ?_
      have := houtside hq
      omega
    have hsecond' : Leaves code (pos + cs.length + 1 + bs.length + 1)
        (pos + cs.length + 1 + bs.length + 1 + 1 + ys.length)
        (y.Out code loops (pos + cs.length + 1 + bs.length + 1 + 1 + ys.length)) := by
      refine (leaves_label hjump.next.head).prepend helse (by omega) (by omega) ?_
      rintro q (⟨-, rfl⟩ | hq)
      · exact .inr (Nat.le_refl _)
      · have := houtside hq
        omega
    have hlabel := (hsecond.behind hys.toNumbered).head
    refine (htest.fork hfirst hsecond' (leaves_label hlabel) (by omega) (by omega)
      (by omega) ?_ ?_).congr fun q => ?_
    · rintro q (⟨-, rfl⟩ | hq)
      · exact .inl rfl
      · exact .inr (houtside hq)
    · rintro q (⟨-, rfl⟩ | hq)
      · exact .inl rfl
      · exact .inr (houtside hq)
    · have hne {z : Exits} {q : Nat} (h : z.Jumps code loops q) :
          q ≠ pos + cs.length + 1 + bs.length + 1 + 1 + ys.length := by
        have := houtside h
        omega
      have hx := hne (z := x) (q := q)
      have hy := hne (z := y) (q := q)
      have hx' : ¬x.Jumps code loops (pos + cs.length + 1 + bs.length + 1 + 1 + ys.length) :=
        fun h => hne h rfl
      have hy' : ¬y.Jumps code loops (pos + cs.length + 1 + bs.length + 1 + 1 + ys.length) :=
        fun h => hne h rfl
      simp only [Exits.Out, Exits.ends_either, Exits.jumps_either]
      grind

/-! Loops. -/

section Loops

variable {start next exit : Label}

/-- A body in a loop. -/
theorem leaves_body {code : List Line} {pos : Nat} (h : Routes x (⟨next, exit⟩ :: loops) m bs m')
    (hstands : Stands code pos m bs) (hnext : Target code pos (pos + bs.length) next)
    (hexit : Target code pos (pos + bs.length) exit) :
    Leaves code pos (pos + bs.length) fun q => x.ends = true ∧ q = pos + bs.length ∨
      (x.breaks = true ∧ q = lineOf code exit ∨ x.continues = true ∧ q = lineOf code next) := by
  refine (h.leaves code pos hstands fun l hl => ?_).congr fun q => Exits.out_cons
  cases hl
  exact ⟨hexit, hnext⟩

/-- What a loop leaves for: the end, if at all. -/
theorem out_of_loop {ends : Bool} {code : List Line} {behind q : Nat} :
    Exits.Out ⟨ends, false, false⟩ code loops behind q ↔ ends = true ∧ q = behind := by
  have hno : ¬(⟨ends, false, false⟩ : Exits).Jumps code loops q := Exits.jumps_of_false rfl rfl
  simp only [Exits.Out, hno, or_false]

theorem whileLoop (hstart : start = .minted .whileStart m)
    (hexit : exit = .minted .whileEnd (m + 1)) (hcs : Crossing (m + 2) cs m₁)
    (hbs : Routes x (⟨start, exit⟩ :: loops) m₁ bs m₂) : Routes .atEnd loops m
    (.label start :: (cs ++ exitLine r exit :: (bs ++ [jumpLine start, .label exit]))) m₂ where
  toNumbered := by
    have hle := hcs.le
    have hle' := hbs.le
    subst hstart hexit
    refine .label (Nat.le_refl _) (by omega) (.both (hcs.widen (by omega) (by omega)) (.instr _ ?_))
    exact .both (hbs.widen (by omega) (Nat.le_refl _))
      (.instr _ (.label (by omega) (by omega) (.nil (by omega))))
  leaves code pos hstands _ := by
    have hle := hcs.le
    have hlineStart : lineOf code start = pos := by
      subst hstart
      exact hstands.lineOf_eq [] _ Stem.noConfusion (Nat.le_refl _) List.not_mem_nil
    have hlineExit : lineOf code exit = pos + 1 + cs.length + 1 + bs.length + 1 := by
      subst hstart hexit
      have hcs' := hcs.not_mem .whileEnd (m + 1) Stem.noConfusion (by omega)
      have hbs' := hbs.not_mem .whileEnd (m + 1) Stem.noConfusion (by omega)
      rw [Stands.lineOf_eq (m := m) (.label _ :: (cs ++ exitLine r _ :: (bs ++ [jumpLine _]))) []
        (by simpa using hstands) Stem.noConfusion (by omega)
        (by simp [hcs', hbs', exitLine, jumpLine])]
      simp only [List.length_append, List.length_cons, List.length_nil]
      omega
    have hend :
        (.label start :: (cs ++ exitLine r exit :: (bs ++ [jumpLine start, .label exit]))).length =
        1 + cs.length + 1 + bs.length + 1 + 1 := by
      simp only [List.length_append, List.length_cons, List.length_nil]
      omega
    simp only [hend, ← Nat.add_assoc]
    have hhead := (hstands.mono (Nat.le_add_right m 2)).tail fun stem i heq => by
      rw [hstart] at heq
      cases heq
      omega
    have hbody := (hhead.behind hcs.toNumbered).next
    have hjump := hbody.behind hbs.toNumbered
    have htest := (leaves_label hstands.head).prepend (hcs.leaves_exit hhead (by omega)) (by omega)
      (by omega) (by omega)
    have hinner := hbs.leaves_body hbody.front ⟨hstart ▸ rfl, by omega⟩ ⟨hexit ▸ rfl, by omega⟩
    have hround :=
      hinner.snoc (leaves_jump hjump.head (hstart ▸ rfl)) (by omega) (by omega) (by omega)
    rw [hlineExit] at htest hround
    rw [hlineStart] at hround
    refine (htest.loop hround (leaves_label hjump.next.head) (by omega) (by omega) (by omega)
      (by omega)).congr fun q => ?_
    rw [show Exits.atEnd = ⟨true, false, false⟩ from rfl, out_of_loop]
    simp

theorem doWhile {test : Label} (hstart : start = .minted .doStart m)
    (htest : test = .minted .doCondition (m + 1)) (hexit : exit = .minted .doEnd (m + 2))
    (hbs : Routes x (⟨test, exit⟩ :: loops) (m + 3) bs m₁) (hcs : Crossing m₁ cs m₂) :
    Routes ⟨x.ends || x.continues || x.breaks, false, false⟩ loops m
      (.label start ::
        (bs ++ .label test :: (cs ++ [exitLine r exit, jumpLine start, .label exit]))) m₂ where
  toNumbered := by
    have hle := hcs.le
    have hle' := hbs.le
    subst hstart htest hexit
    refine .label (Nat.le_refl _) (by omega)
      (.both (hbs.widen (by omega) (by omega)) (.label (by omega) (by omega) ?_))
    exact .both (hcs.widen (by omega) (Nat.le_refl _))
      (.instr _ (.instr _ (.label (by omega) (by omega) (.nil (by omega)))))
  leaves code pos hstands _ := by
    have hle := hcs.le
    have hle' := hbs.le
    have hlineStart : lineOf code start = pos := by
      subst hstart
      exact hstands.lineOf_eq [] _ Stem.noConfusion (Nat.le_refl _) List.not_mem_nil
    have hlineTest : lineOf code test = pos + 1 + bs.length := by
      subst hstart htest
      have hbs' := hbs.not_mem .doCondition (m + 1) Stem.noConfusion (by omega)
      rw [hstands.lineOf_eq (.label _ :: bs) _ Stem.noConfusion (by omega) (by simp [hbs'])]
      simp only [List.length_cons]
      omega
    have hlineExit : lineOf code exit = pos + 1 + bs.length + 1 + cs.length + 1 + 1 := by
      subst hstart htest hexit
      have hcs' := hcs.not_mem .doEnd (m + 2) Stem.noConfusion (by omega)
      have hbs' := hbs.not_mem .doEnd (m + 2) Stem.noConfusion (by omega)
      rw [Stands.lineOf_eq (m := m)
        (.label _ :: (bs ++ .label _ :: (cs ++ [exitLine r _, jumpLine _]))) []
        (by simpa using hstands) Stem.noConfusion (by omega)
        (by simp [hcs', hbs', exitLine, jumpLine])]
      simp only [List.length_append, List.length_cons, List.length_nil]
      omega
    have hend : (.label start ::
          (bs ++ .label test :: (cs ++ [exitLine r exit, jumpLine start, .label exit]))).length =
        1 + bs.length + 1 + cs.length + 1 + 1 + 1 := by
      simp only [List.length_append, List.length_cons, List.length_nil]
      omega
    simp only [hend, ← Nat.add_assoc]
    have hbody := (hstands.mono (Nat.le_add_right m 3)).tail fun stem i heq => by
      rw [hstart] at heq
      cases heq
      omega
    have hlabel := hbody.behind hbs.toNumbered
    have hcond := hlabel.tail fun stem i heq => by
      rw [htest] at heq
      cases heq
      omega
    have hjump := (hcond.behind hcs.toNumbered).next
    have hinner := hbs.leaves_body hbody.front ⟨htest ▸ rfl, by omega⟩ ⟨hexit ▸ rfl, by omega⟩
    rw [hlineExit, hlineTest] at hinner
    have hhead := (leaves_label hstands.head).prepend hinner (by omega) (by omega) (by omega)
    have hexits := hcs.leaves_exit hcond (by omega)
    rw [hlineExit] at hexits
    have hback := leaves_jump hjump.head (hstart ▸ rfl)
    rw [hlineStart] at hback
    have hagain :
        Leaves code (pos + 1 + bs.length + 1) (pos + 1 + bs.length + 1 + cs.length + 1 + 1) fun q =>
        True ∧ q = pos ∨ q = pos + 1 + bs.length + 1 + cs.length + 1 + 1 := by
      refine (hexits.congr fun q => ?_).snoc hback (by omega) (by omega) (by omega)
      rw [true_and]
    have hround := (leaves_label hlabel.head).prepend hagain (by omega) (by omega) (by omega)
    refine (hhead.loop hround (leaves_label hjump.next.head) (by omega) (by omega) (by omega)
      (by omega)).congr fun q => ?_
    rw [out_of_loop]
    simp only [Bool.or_eq_true]
    grind

/-- Lines that may jump to a label, if there is a condition. -/
structure Tests (c : Bool) (exit : Label) (m : Nat) (ts : List Line) (m' : Nat) :
    Prop extends Numbered m ts m' where
  leaves : ∀ code pos, Stands code pos m ts →
    lineOf code exit < pos ∨ pos + ts.length ≤ lineOf code exit →
    Leaves code pos (pos + ts.length) fun q => q = pos + ts.length ∨ c = true ∧ q = lineOf code exit

theorem tests_none : Tests false exit m [] m where
  toNumbered := .nil (Nat.le_refl m)
  leaves code pos _ _ := (Leaves.nil pos).congr fun q => by simp

theorem tests_some (exit : Label) (hcs : Crossing m cs m') :
    Tests true exit m (cs ++ [exitLine r exit]) m' where
  toNumbered := hcs.toNumbered.append (.instr _ (.nil (Nat.le_refl _)))
  leaves code pos hstands hexit := by
    simp only [List.length_append, List.length_singleton, ← Nat.add_assoc] at hexit ⊢
    exact (hcs.leaves_exit hstands hexit).congr fun q => by simp

/-- The step of a `for` with its label, or nothing if there is no step, and then the next round is
at the start. -/
inductive Steps (start : Label) (low high m : Nat) : (next : Label) → List Line → (m' : Nat) → Prop
  | none : Steps start low high m start [] m
  | some {i m' : Nat} {ss : List Line} : low ≤ i → i < high → Crossing m ss m' →
      Steps start low high m (.minted .forIncrement i) (.label (.minted .forIncrement i) :: ss) m'

namespace Steps

variable {low high : Nat} {ss : List Line}

theorem le (h : Steps start low high m next ss m') : m ≤ m' := by
  cases h with
  | none => exact Nat.le_refl m
  | some _ _ hss => exact hss.le

theorem numbered (h : Steps start low high m next ss m') (hlow : low ≤ m) (hhigh : high ≤ m) :
    Numbered low ss m' := by
  cases h with
  | none => exact .nil hlow
  | some hi hi' hss =>
    have hle := hss.le
    exact .label hi (by omega) (hss.widen hlow (Nat.le_refl _))

theorem not_mem (h : Steps start low high m next ss m') (stem : Stem) (i : Nat)
    (hstem : stem ≠ .retAddr) (hne : stem ≠ .forIncrement) (hi : i < m) :
    .label (.minted stem i) ∉ ss := by
  cases h with
  | none => exact List.not_mem_nil
  | some _ _ hss =>
    have hss' := hss.not_mem stem i hstem (.inl hi)
    simp [hss', hne]

/-- The step with the jump back. -/
theorem leaves {code : List Line} {pos : Nat} (h : Steps start low high m next ss m')
    (hhigh : high ≤ m) (hstands : Stands code pos m (ss ++ jumpLine start :: ys))
    (hstart : start.isEntry = false) (hbefore : lineOf code start < pos) :
    Leaves code pos (pos + ss.length + 1) (· = lineOf code start) := by
  cases h with
  | none => exact leaves_jump hstands.head hstart
  | @some i m' ss _ hi' hss =>
    have hstep := hstands.tail fun stem i heq => by cases heq; omega
    have hback := leaves_jump (hstep.behind hss.toNumbered).head hstart
    have hagain := (hss.leaves code _ hstep.front).prepend hback (by omega) (by omega) (by omega)
    have hall := (leaves_label hstands.head).prepend hagain (by omega) (by omega) (by omega)
    rw [List.length_cons, Nat.add_comm ss.length 1, ← Nat.add_assoc]
    exact hall

end Steps

theorem forLoop {c : Bool} {is ts ss : List Line} (his : Crossing m is m₁)
    (hstart : start = .minted .forStart m₁) (hexit : exit = .minted .forEnd n) (hn : m₁ < n)
    (hts : Tests c exit (n + 1) ts m₂) (hbs : Routes x (⟨next, exit⟩ :: loops) m₂ bs m₃)
    (hss : Steps start (m₁ + 1) n m₃ next ss m') : Routes ⟨c || x.breaks, false, false⟩ loops m
      (is ++ .label start :: (ts ++ (bs ++ (ss ++ [jumpLine start, .label exit])))) m' where
  toNumbered := by
    have hle := his.le
    have hle' := hts.le
    have hle'' := hbs.le
    have hle₃ := hss.le
    have hsteps := hss.numbered (by omega) (by omega)
    subst hstart hexit
    refine .both (his.widen (Nat.le_refl _) (by omega))
      (.label (by omega) (by omega) (.both (hts.widen (by omega) (by omega)) ?_))
    refine .both (hbs.widen (by omega) (by omega))
      (.both (hsteps.widen (by omega) (Nat.le_refl _)) (.instr _ ?_))
    exact .label (by omega) (by omega) (.nil (by omega))
  leaves code pos hstands _ := by
    have hle := his.le
    have hle' := hts.le
    have hle'' := hbs.le
    have hle₃ := hss.le
    have hlineStart : lineOf code start = pos + is.length := by
      subst hstart
      exact hstands.lineOf_eq _ _ Stem.noConfusion hle
        (his.not_mem _ _ Stem.noConfusion (.inr (Nat.le_refl _)))
    have hlineExit :
        lineOf code exit = pos + is.length + 1 + ts.length + bs.length + ss.length + 1 := by
      subst hstart hexit
      have his' := his.not_mem .forEnd n Stem.noConfusion (by omega)
      have hts' := hts.not_mem .forEnd n Stem.noConfusion (by omega)
      have hbs' := hbs.not_mem .forEnd n Stem.noConfusion (by omega)
      have hss' := hss.not_mem .forEnd n Stem.noConfusion Stem.noConfusion (by omega)
      rw [Stands.lineOf_eq (m := m) (is ++ .label _ :: (ts ++ (bs ++ (ss ++ [jumpLine _])))) []
        (by simpa using hstands) Stem.noConfusion (by omega)
        (by simp [his', hts', hbs', hss', jumpLine])]
      simp only [List.length_append, List.length_cons, List.length_nil]
      omega
    have hlineNext : next.isEntry = false ∧ (lineOf code next = pos + is.length ∨
        lineOf code next = pos + is.length + 1 + ts.length + bs.length) := by
      cases hss with
      | none => exact ⟨hstart ▸ rfl, .inl hlineStart⟩
      | @some i _ ss hi hi' _ =>
        subst hstart hexit
        have his' := his.not_mem .forIncrement i Stem.noConfusion (by omega)
        have hts' := hts.not_mem .forIncrement i Stem.noConfusion (by omega)
        have hbs' := hbs.not_mem .forIncrement i Stem.noConfusion (by omega)
        refine ⟨rfl, .inr ?_⟩
        rw [Stands.lineOf_eq (m := m) (is ++ .label _ :: (ts ++ bs)) (ss ++ [jumpLine _, _])
          (by simpa using hstands) Stem.noConfusion (by omega) (by simp [his', hts', hbs'])]
        simp only [List.length_append, List.length_cons]
        omega
    have hend :
        (is ++ .label start :: (ts ++ (bs ++ (ss ++ [jumpLine start, .label exit])))).length =
        is.length + 1 + ts.length + bs.length + ss.length + 1 + 1 := by
      simp only [List.length_append, List.length_cons, List.length_nil]
      omega
    simp only [hend, ← Nat.add_assoc]
    have hlabel := hstands.behind his.toNumbered
    have hhead := (hlabel.mono (show m₁ ≤ n + 1 by omega)).tail fun stem i heq => by
      rw [hstart] at heq
      cases heq
      omega
    have hbody := hhead.behind hts.toNumbered
    have hstep := hbody.behind hbs.toNumbered
    have htest := (leaves_label hlabel.head).prepend (hts.leaves code _ hhead.front (by omega))
      (by omega) (by omega) (by omega)
    have hinner := hbs.leaves_body hbody.front ⟨hlineNext.1, by omega⟩ ⟨hexit ▸ rfl, by omega⟩
    have hback := hss.leaves (by omega) hstep (hstart ▸ rfl) (by omega)
    rw [hlineExit] at htest hinner
    rw [hlineStart] at hback
    have hround : Leaves code (pos + is.length + 1 + ts.length)
        (pos + is.length + 1 + ts.length + bs.length + ss.length + 1) fun q =>
        (x.ends = true ∨ x.continues = true) ∧ q = pos + is.length ∨
          x.breaks = true ∧ q = pos + is.length + 1 + ts.length + bs.length + ss.length + 1 := by
      refine hinner.append (fun _ => hback) (by omega) (by omega) (fun q => ?_) (by omega)
      generalize lineOf code next = l at hlineNext
      grind
    have hloop := htest.loop hround (leaves_label hstep.placed.append.2.tail.head) (by omega)
      (by omega) (by omega) (by omega)
    refine ((his.leaves code pos hstands.front).prepend hloop (by omega) (by omega)
      (by omega)).congr fun q => ?_
    rw [out_of_loop, Bool.or_eq_true]
    grind

end Loops

end Routes

/-! ### Returns -/

mutual

/-- Whether a return stands anywhere in a statement. -/
def Stmt.returns : Stmt → Bool
  | ret _ => true
  | ifThen _ s | whileLoop _ s | doWhile s _ | forLoop _ _ _ s => s.returns
  | ifElse _ s t => s.returns || t.returns
  | block ss => Stmt.returnsAll ss
  | decl _ | assign _ _ | assignIndex _ _ _ | assignDeref _ _ | call _ | increment _ _
  | decrement _ _ | breakLoop | continueLoop
  | asm _ | hole => false

def Stmt.returnsAll : List Stmt → Bool
  | [] => false
  | s :: ss => s.returns || Stmt.returnsAll ss

end

/-- The way out of a function: its last line leads nowhere. -/
def leaveLines (f : String) : List Line :=
  if f = "main" then [.instr .halt] else [.instr (.load link sp), popLine, returnLine]

theorem leave_eq {f : String} {k : Compiler} (hk : k.current = some f) :
    leave k = (.ok (), k.wrote 0 0 (leaveLines f)) := by
  unfold leave leaveLines
  rw [bind_ok (show currentFunction k = (.ok (some f), k) from hk ▸ rfl)]
  by_cases hf : f = "main"
  · rw [if_pos (congrArg some hf), if_pos hf, Compiler.emit_eq]
  · rw [if_neg fun h => hf (Option.some.inj h), if_neg hf, bind_ok (Compiler.emit_eq _ _),
      bind_ok (Compiler.emit_wrote ..), Compiler.emit_wrote]
    rfl

/-- A line that leads nowhere. -/
theorem Routes.stop {i : Instr} {loops : List LoopLabels} {m : Nat}
    (hi : ∀ code p q, code[p]? = some (.instr i) → ¬Moves code p q) :
    Routes ⟨false, false, false⟩ loops m [.instr i] m where
  toNumbered := .instr i (.nil (Nat.le_refl m))
  leaves code pos hstands _ := .line fun q => by
    rw [out_of_loop]
    exact iff_of_false (hi code pos q hstands.head) fun h => Bool.false_ne_true h.1

/-- A line that jumps into the loop around. -/
theorem Routes.jump {l : Label} {x : Exits} {loops : List LoopLabels} {m : Nat}
    (h : ∀ code q a c, Targets code loops a c → l.isEntry = false ∧
      (q = lineOf code l ↔ x.Out code loops (a + 1) q)) : Routes x loops m [jumpLine l] m where
  toNumbered := .instr _ (.nil (Nat.le_refl m))
  leaves code pos hstands htargets := by
    refine .line fun q => ?_
    obtain ⟨hl, hout⟩ := h code q pos _ htargets
    rw [moves_jump hstands.head hl, hout]
    rfl

theorem routes_leaveLines (f : String) (loops : List LoopLabels) (m : Nat) :
    Routes ⟨false, false, false⟩ loops m (leaveLines f) m := by
  unfold leaveLines
  split
  · exact .stop fun _ _ _ => not_moves_halt
  · have hload : Crossing m [.instr (.load link sp)] m := .put rfl (by decide)
    have hpop : Crossing m [.instr (.load link sp), popLine] m :=
      hload.append (.put rfl (by decide))
    have hback : Routes ⟨false, false, false⟩ loops m [returnLine] m :=
      .stop fun _ _ _ => not_moves_return
    exact (Routes.of_crossing hpop).seq hback

/-! ### What the compiler writes for a statement -/

namespace Compiler

variable {f : Option String} {b : Bool} {k k' : Compiler}

theorem added_eq {ls : List Line} (h : k'.code.toList = k.code.toList ++ ls) : k.added k' = ls := by
  rw [added, h, ← Array.length_toList, List.drop_left]

theorem Ready.openLoop (hk : k.Ready (Inside f b)) (labels : LoopLabels) :
    (k.openLoop labels).Ready (Inside f b) :=
  ⟨hk.turning, hk.functions, ⟨hk.other.current, hk.other.registers, hk.other.returned⟩⟩

theorem Ready.closeLoop (hk : k.Ready (Inside f b)) : k.closeLoop.Ready (Inside f b) :=
  ⟨hk.turning, hk.functions, ⟨hk.other.current, hk.other.registers, hk.other.returned⟩⟩

theorem Ready.returning (hk : k.Ready (Inside f b)) :
    { k with returned := true }.Ready (Inside f true) :=
  ⟨hk.turning, hk.functions, ⟨hk.other.current, hk.other.registers, rfl⟩⟩

end Compiler

section Lowered

variable {f : Option String} {b : Bool} {k k' : Compiler}

theorem Compile.Passes.added {α : Type} {x : Compile α} {P : α → Prop} {a : α} (hx : Passes f b x P)
    (hk : k.Ready (Compiler.Inside f b)) (h : x k = (.ok a, k')) :
    k'.Ready (Compiler.Inside f b) ∧ Crossing k.labelCount (k.added k') k'.labelCount := by
  obtain ⟨hk', -, ls, hcode, hcross⟩ := hx k a k' hk h
  rw [Compiler.added_eq hcode]
  exact ⟨hk', hcross⟩

theorem Expr.crossing_added {c : Expr} {r : Reg} (hk : k.Ready (Compiler.Inside f b))
    (h : c.compile k = (.ok r, k')) :
    k'.Ready (Compiler.Inside f b) ∧ Crossing k.labelCount (k.added k') k'.labelCount :=
  Compile.Passes.added (c.lays_compile 0) hk h

theorem routes_ret {f : String} {value : Option Expr} {loops : List LoopLabels}
    (hk : k.Ready (Compiler.Inside (some f) b)) (h : (Stmt.ret value).compile k = (.ok (), k')) :
    k'.Ready (Compiler.Inside (some f) true) ∧
    Routes ⟨false, false, false⟩ loops k.labelCount (k.added k') k'.labelCount := by
  rw [Stmt.compile] at h
  obtain ⟨⟨⟩, k₁, hset, h⟩ := bind_eq_ok h
  cases hset
  have hk₁ := hk.returning
  obtain ⟨k₂, hleave, hk₂, -, ls, hcode, hcross⟩ : ∃ k₂, leave k₂ = (.ok (), k') ∧
    k₂.Ready (Compiler.Inside (some f) true) ∧ True ∧
      ∃ ls, k₂.code.toList = k.code.toList ++ ls ∧ Crossing k.labelCount ls k₂.labelCount := by
    cases value with
    | none =>
      obtain ⟨⟨⟩, k₂, hput, hleave⟩ := bind_eq_ok h
      have hpasses : Passes (some f) true (emit (.mov result (.imm 0))) fun _ => True :=
        lays_put rfl (by decide)
      have hlines := hpasses _ () k₂ hk₁ hput
      exact ⟨k₂, hleave, hlines⟩
    | some e =>
      obtain ⟨v, k₁, he, h⟩ := bind_eq_ok h
      obtain ⟨⟨⟩, k₂, hmove, hleave⟩ := bind_eq_ok h
      have hinit : initTo result e { k with returned := true } = (.ok (), k₂) :=
        (bind_ok he).trans hmove
      have hpasses : Passes (some f) true (initTo result e) fun _ => True :=
        passes_initTo (by decide) e
      have hlines := hpasses _ () k₂ hk₁ hinit
      exact ⟨k₂, hleave, hlines⟩
  rw [leave_eq (show k₂.current = some f from hk₂.other.current)] at hleave
  cases hleave
  refine ⟨hk₂.wrote _ _ _, ?_⟩
  have hall : k.added (k₂.wrote 0 0 (leaveLines f)) = ls ++ leaveLines f := by
    refine Compiler.added_eq ?_
    show (k₂.code ++ _).toList = _
    rw [Array.toList_append, hcode, List.append_assoc]
  rw [hall]
  exact (Routes.of_crossing hcross).seq (routes_leaveLines f loops _)

theorem LowersStart.ways {init : Option ForInit} {is : List CodePiece}
    (h : LowersStart init k is k') (hk : k.Ready (Compiler.Inside f b))
    (hsteady : init.all ForInit.steady = true) : k'.Ready (Compiler.Inside f b) ∧
    Crossing k.labelCount (is.flatMap CodePiece.lines) k'.labelCount := by
  cases h with
  | none => exact ⟨hk, .nil (Nat.le_refl _)⟩
  | @some i _ _ hrun =>
    have hleaf : i.toStmt.isLeaf = true ∧ i.toStmt.isReturn = false := by
      cases i <;> exact ⟨rfl, rfl⟩
    have hi : i.toStmt.steady = true := i.steady_toStmt.trans hsteady
    have hpasses := Compile.Passes.added (Stmt.passes_leaf hleaf.1 hleaf.2 hi) hk hrun
    simpa [CodePiece.lines] using hpasses

theorem LowersTest.ways {exit : Label} {c : Option Expr} {ts : List CodePiece}
    (h : LowersTest exit c k ts k') (hk : k.Ready (Compiler.Inside f b)) :
    k'.Ready (Compiler.Inside f b) ∧
    Routes.Tests c.isSome exit k.labelCount (ts.flatMap CodePiece.lines) k'.labelCount := by
  cases h with
  | none => exact ⟨hk, Routes.tests_none⟩
  | @some c _ k₁ r hc =>
    obtain ⟨hk₁, hcross⟩ := Expr.crossing_added hk hc
    have hclear : Crossing k₁.labelCount [clearLine (k₁.pool.nth 0)] k₁.labelCount :=
      .put rfl (RegPool.nth_ne_ip hk₁.turning 0)
    have htests := Routes.tests_some (r := r) exit (hcross.append hclear)
    refine ⟨hk₁.wrote _ _ _, ?_⟩
    rw [List.append_assoc] at htests
    exact htests

theorem LowersStep.ways (start : Label) {next : Label} {low high : Nat} {step : Option ForStep}
    {ss : List CodePiece} (h : LowersStep next step k ss k') (hk : k.Ready (Compiler.Inside f b))
    (hsteady : step.all ForStep.steady = true) (hnone : step = Option.none → next = start)
    (hsome : ∀ st, step = Option.some st →
      ∃ i, next = .minted .forIncrement i ∧ low ≤ i ∧ i < high) : k'.Ready (Compiler.Inside f b) ∧
    Routes.Steps start low high k.labelCount next (ss.flatMap CodePiece.lines) k'.labelCount := by
  cases h with
  | none =>
    rw [hnone rfl]
    exact ⟨hk, .none⟩
  | @some st _ _ hrun =>
    have hleaf : st.toStmt.isLeaf = true ∧ st.toStmt.isReturn = false := by
      cases st <;> exact ⟨rfl, rfl⟩
    have hst : st.toStmt.steady = true := st.steady_toStmt.trans hsteady
    obtain ⟨hk', hcross⟩ :=
      Compile.Passes.added (Stmt.passes_leaf hleaf.1 hleaf.2 hst) (hk.wrote 0 0 _) hrun
    obtain ⟨i, rfl, hlow, hhigh⟩ := hsome st rfl
    refine ⟨hk', ?_⟩
    simp only [List.flatMap_cons, List.flatMap_nil, CodePiece.lines, List.append_nil]
    exact .some hlow hhigh hcross

/-- The ways through the code of a statement lead to its ways out. -/
theorem Lowers.routes {f : String} {s : Stmt} {ps : List CodePiece} (h : Lowers s k ps k') :
    ∀ b, k.Ready (Compiler.Inside (some f) b) → s.steady = true →
    k'.Ready (Compiler.Inside (some f) (b || s.returns)) ∧
      Routes s.exits k.loops k.labelCount (ps.flatMap CodePiece.lines) k'.labelCount := by
  induction h with
  | @leaf s k k' hleaf hrun =>
    intro b hk hsteady
    rw [List.flatMap_singleton]
    rcases hreturn : s.isReturn with _ | _
    · obtain ⟨hk', hcross⟩ := Compile.Passes.added (s.passes_leaf hleaf hreturn hsteady) hk hrun
      obtain ⟨hexits, hreturns⟩ : s.exits = .atEnd ∧ s.returns = false := by
        cases s with
        | ret => cases hreturn
        | decl | assign | assignIndex | assignDeref | call | increment | decrement | asm | hole =>
          simp only [Stmt.exits, Stmt.returns, and_self]
        | _ => cases hleaf
      rw [hexits, hreturns, Bool.or_false]
      exact ⟨hk', .of_crossing hcross⟩
    · cases s with
      | ret value =>
        rw [Stmt.exits, Stmt.returns, Bool.or_true]
        exact routes_ret hk hrun
      | _ => cases hreturn
  | @breakLoop k labels hlabels =>
    intro b hk _
    rw [Stmt.exits, Stmt.returns, Bool.or_false]
    refine ⟨hk.wrote _ _ _, .jump fun code q a c htargets =>
      ⟨(htargets labels hlabels).1.entry, ?_⟩⟩
    simp [Exits.Out, Exits.Jumps, hlabels]
  | @continueLoop k labels hlabels =>
    intro b hk _
    rw [Stmt.exits, Stmt.returns, Bool.or_false]
    refine ⟨hk.wrote _ _ _, .jump fun code q a c htargets =>
      ⟨(htargets labels hlabels).2.entry, ?_⟩⟩
    simp [Exits.Out, Exits.Jumps, hlabels]
  | @nil k =>
    intro b hk _
    rw [Stmt.exits, Stmt.exitsAll, Stmt.returns, Stmt.returnsAll, Bool.or_false]
    exact ⟨hk, .of_crossing (.nil (Nat.le_refl _))⟩
  | @cons s ss k k₁ k₂ ps qs hs _ ihs ihss =>
    intro b hk hsteady
    obtain ⟨hsteady, hsteady'⟩ : s.steady = true ∧ (Stmt.block ss).steady = true := by
      simpa [Stmt.steady, Stmt.steadyAll] using hsteady
    obtain ⟨hk₁, hroutes⟩ := ihs b hk hsteady
    obtain ⟨hk₂, hroutes'⟩ := ihss _ hk₁ hsteady'
    rw [hs.extends.loops] at hroutes'
    rw [List.flatMap_append]
    refine ⟨?_, ?_⟩
    · rwa [Stmt.returns, Stmt.returnsAll, ← Bool.or_assoc]
    · rw [Stmt.exits, Stmt.exitsAll]
      exact hroutes.seq hroutes'
  | @ifThen c s k k₁ k₂ r z done ps hc hz hdone _ ih =>
    intro b hk hsteady
    obtain ⟨hk₁, hcs⟩ := Expr.crossing_added hk hc
    obtain ⟨hk₂, hroutes⟩ := ih b (hk₁.wrote _ _ _) (by simpa [Stmt.steady] using hsteady)
    have hloops : (k₁.wrote 1 2 [clearLine z, exitLine r done]).loops = k.loops :=
      (Compiler.extends_of_expr hc).loops
    have hclear : Crossing k₁.labelCount [clearLine z] k₁.labelCount :=
      .put rfl (hz ▸ RegPool.nth_ne_ip hk₁.turning 0)
    rw [hloops] at hroutes
    rw [Stmt.returns, Stmt.exits]
    refine ⟨hk₂.wrote _ _ _, ?_⟩
    have hall :=
      Routes.ifThen (r := r) hdone ⟨Nat.le_succ _, Nat.lt_succ_self _⟩ (hcs.append hclear) hroutes
    have hlines :
        (CodePiece.test c r (k.added k₁) :: .line (clearLine z) :: .line (exitLine r done) ::
        (ps ++ [.line (.label done)])).flatMap CodePiece.lines =
        k.added k₁ ++ [clearLine z] ++ exitLine r done ::
        (ps.flatMap CodePiece.lines ++ [.label done]) := by
      simp [CodePiece.lines]
    rw [hlines]
    exact hall
  | @ifElse c s t k k₁ k₂ k₃ r z other done ps qs hc hz hother hdone hs _ ihs iht =>
    intro b hk hsteady
    obtain ⟨hsteady, hsteady'⟩ : s.steady = true ∧ t.steady = true := by
      simpa [Stmt.steady] using hsteady
    obtain ⟨hk₁, hcs⟩ := Expr.crossing_added hk hc
    obtain ⟨hk₂, hroutes⟩ := ihs b (hk₁.wrote _ _ _) hsteady
    obtain ⟨hk₃, hroutes'⟩ := iht _ (hk₂.wrote _ _ _) hsteady'
    have hloops : (k₁.wrote 1 2 [clearLine z, exitLine r other]).loops = k.loops :=
      (Compiler.extends_of_expr hc).loops
    have hloops' : (k₂.wrote 0 0 [jumpLine done, .label other]).loops = k.loops :=
      hs.extends.loops.trans hloops
    have hclear : Crossing k₁.labelCount [clearLine z] k₁.labelCount :=
      .put rfl (hz ▸ RegPool.nth_ne_ip hk₁.turning 0)
    rw [hloops] at hroutes
    rw [hloops'] at hroutes'
    rw [Stmt.returns, Stmt.exits, ← Bool.or_assoc]
    refine ⟨hk₃.wrote _ _ _, ?_⟩
    have hall := Routes.ifElse (r := r) hother hdone ⟨Nat.le_refl _, Nat.lt_succ_of_lt
      (Nat.lt_succ_self _)⟩ ⟨Nat.le_succ _, Nat.lt_succ_self _⟩ (hcs.append hclear) hroutes hroutes'
    have hlines :
        (CodePiece.test c r (k.added k₁) :: .line (clearLine z) :: .line (exitLine r other) ::
        (ps ++ .line (jumpLine done) :: .line (.label other) ::
        (qs ++ [.line (.label done)]))).flatMap CodePiece.lines =
        k.added k₁ ++ [clearLine z] ++ exitLine r other ::
        (ps.flatMap CodePiece.lines ++ jumpLine done :: .label other ::
          (qs.flatMap CodePiece.lines ++ [.label done])) := by
      simp [CodePiece.lines]
    rw [hlines]
    exact hall
  | @whileLoop c s k k₁ k₂ k₃ r start exit ps hstart hexit hk₁ hc _ ih =>
    intro b hk hsteady
    have hopen : k₁.Ready (Compiler.Inside (some f) b) :=
      hk₁ ▸ ((hk.wrote 0 2 []).openLoop ⟨start, exit⟩).wrote 0 0 _
    obtain ⟨hk₂, hcs⟩ := Expr.crossing_added hopen hc
    obtain ⟨hk₃, hroutes⟩ := ih b (hk₂.wrote _ _ _) (by simpa [Stmt.steady] using hsteady)
    have hloops : (k₂.wrote 0 0 [exitLine r exit]).loops = ⟨start, exit⟩ :: k.loops :=
      (Compiler.extends_of_expr hc).loops.trans (hk₁ ▸ rfl)
    have hcount : k₁.labelCount = k.labelCount + 2 := hk₁ ▸ rfl
    rw [hloops] at hroutes
    rw [hcount] at hcs
    rw [Stmt.returns, Stmt.exits]
    refine ⟨(hk₃.wrote _ _ _).closeLoop, ?_⟩
    have hall := Routes.whileLoop (r := r) hstart hexit hcs hroutes
    have hlines :
        (CodePiece.line (.label start) :: .test c r (k₁.added k₂) :: .line (exitLine r exit) ::
        (ps ++ [.line (jumpLine start), .line (.label exit)])).flatMap CodePiece.lines =
        .label start :: (k₁.added k₂ ++ exitLine r exit ::
        (ps.flatMap CodePiece.lines ++ [jumpLine start, .label exit])) := by
      simp [CodePiece.lines]
    rw [hlines]
    exact hall
  | @doWhile c s k k₁ k₂ k₃ r start test exit ps hstart htest hexit hs hk₂ hc ih =>
    intro b hk hsteady
    have hopen := ((hk.wrote 0 3 []).openLoop ⟨test, exit⟩).wrote 0 0 [.label start]
    obtain ⟨hk₁, hroutes⟩ := ih b hopen (by simpa [Stmt.steady] using hsteady)
    have hready : k₂.Ready (Compiler.Inside (some f) (b || s.returns)) := hk₂ ▸ hk₁.wrote _ _ _
    obtain ⟨hk₃, hcs⟩ := Expr.crossing_added hready hc
    have hcount : k₂.labelCount = k₁.labelCount := hk₂ ▸ rfl
    rw [hcount] at hcs
    rw [Stmt.returns, Stmt.exits]
    refine ⟨(hk₃.wrote _ _ _).closeLoop, ?_⟩
    have hall := Routes.doWhile (r := r) hstart htest hexit hroutes hcs
    have hlines : (CodePiece.line (.label start) ::
          (ps ++ [.line (.label test), .test c r (k₂.added k₃), .line (exitLine r exit),
        .line (jumpLine start), .line (.label exit)])).flatMap CodePiece.lines =
        .label start :: (ps.flatMap CodePiece.lines ++ .label test :: (k₂.added k₃ ++
          [exitLine r exit, jumpLine start, .label exit])) := by
      simp [CodePiece.lines]
    rw [hlines]
    exact hall
  | @forLoop init c step s k k₁ k₂ k₃ k₄ k₅ start next exit is ts ps ss his hstart hnext hexit
      hts hs hss ih =>
    intro b hk hsteady
    obtain ⟨⟨hinit, hstep⟩, hbody⟩ :
        (init.all ForInit.steady = true ∧ step.all ForStep.steady = true) ∧ s.steady = true := by
      simpa [Stmt.steady] using hsteady
    obtain ⟨hk₁, his'⟩ := his.ways hk hinit
    have hk₁' := hk₁.wrote 0 1 []
    obtain ⟨hk₂, hcount, hnone, hsome⟩ : k₂.Ready (Compiler.Inside (some f) b) ∧
      k₁.labelCount < k₂.labelCount ∧
        (step = none → next = start) ∧ ∀ st, step = some st →
          ∃ i, next = .minted .forIncrement i ∧ k₁.labelCount + 1 ≤ i ∧ i < k₂.labelCount := by
      rcases stepLabel_cases hnext with ⟨rfl, rfl, rfl⟩ | ⟨⟨st, rfl⟩, rfl, rfl⟩
      · exact ⟨hk₁', Nat.lt_succ_self _, fun _ => rfl, fun _ heq => by cases heq⟩
      · refine ⟨hk₁'.wrote 0 1 [], Nat.lt_succ_of_lt (Nat.lt_succ_self _),
          fun heq => absurd heq (Option.some_ne_none st), ?_⟩
        exact fun _ _ => ⟨_, rfl, Nat.le_refl _, Nat.lt_succ_self _⟩
    obtain ⟨hk₃, hts'⟩ :=
      hts.ways (((hk₂.wrote 0 1 []).openLoop ⟨next, exit⟩).wrote 0 0 [.label start])
    obtain ⟨hk₄, hroutes⟩ := ih b hk₃ hbody
    obtain ⟨hk₅, hss'⟩ := hss.ways start hk₄ hstep hnone hsome
    have hloops : k₃.loops = ⟨next, exit⟩ :: k.loops := by
      have hstart := his.extends.loops
      have hmint := (extends_of_stepLabel hnext).loops
      have htest := hts.extends.loops
      exact htest.trans (congrArg _ (hmint.trans hstart))
    rw [hloops] at hroutes
    rw [Stmt.returns, Stmt.exits]
    refine ⟨(hk₅.wrote _ _ _).closeLoop, ?_⟩
    have hall := Routes.forLoop his' hstart hexit hcount hts' hroutes hss'
    have hlines : (is ++ CodePiece.line (.label start) :: (ts ++ (ps ++ (ss ++
        [CodePiece.line (jumpLine start), CodePiece.line (.label exit)])))).flatMap
        CodePiece.lines =
        is.flatMap CodePiece.lines ++ .label start ::
        (ts.flatMap CodePiece.lines ++ (ps.flatMap CodePiece.lines ++
          (ss.flatMap CodePiece.lines ++ [jumpLine start, .label exit]))) := by
      simp [CodePiece.lines]
    rw [hlines]
    exact hall

end Lowered

end WordC
