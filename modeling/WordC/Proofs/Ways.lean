import Mathlib.Logic.Relation
import WordC.Proofs.StackHeight

/-!
# Ways through a listing

Which line can come behind which, over all states of the processor: an edge of the graph of a
listing is a step that some state takes, or a call that has come back to the line behind it. What a
run can pass are the ways along these edges.

The graph is worked out part by part. A part is a range of lines that is entered at its first line,
and it is known by the lines outside that its ways lead to. Parts are put together one behind the
other, or, where there are jumps back, by a set of lines that every part keeps to.
-/

namespace WordC.Asm

/-! ### From line to line -/

/-- Control can go from one line to another: some state of the processor takes the step, or a call
has come back. A line that returns leads nowhere. -/
inductive Moves (code : List Line) : Nat → Nat → Prop
  | step {s t : Cpu} {l : Line} {input : BitVec 32} :
      code[s.pc]? = some l → (∀ f, f.isEntry = true → l ≠ callLine f) →
      l ≠ returnLine → s.step code input = some t → Moves code s.pc t.pc
  | call {p : Nat} {f : Label} :
      code[p]? = some (callLine f) → f.isEntry = true → Moves code p (p + 1)

/-- Lines behind which always the next line comes. -/
def Line.GoesOn : Line → Prop
  | .instr i => i.target? ≠ some ip ∧ i ≠ .halt
  | .label _ | .comment _ | .blank => True
  | _ => False

namespace Cpu

variable {code : List Line} {input : BitVec 32} {s t : Cpu} {l : Line}

/-- A state at a line. -/
def standing (p : Nat) (v : BitVec 32) : Cpu := ⟨fun _ => v, fun _ => 0, p⟩

theorem step_pc_of_goesOn (hl : code[s.pc]? = some l) (hgoes : l.GoesOn)
    (h : s.step code input = some t) : t.pc = s.pc + 1 := by
  unfold step at h
  rw [hl] at h
  cases l with
  | instr i => exact exec_pc h hgoes.1
  | label | comment | blank =>
    cases h
    rfl
  | verbatim | word | directive => cases hgoes

theorem exists_step_of_goesOn (input : BitVec 32) (hl : code[s.pc]? = some l) (hgoes : l.GoesOn) :
    ∃ t, s.step code input = some t := by
  unfold step
  rw [hl]
  cases l with
  | instr i =>
    cases i with
    | halt => exact absurd rfl hgoes.2
    | _ => exact ⟨_, rfl⟩
  | label | comment | blank => exact ⟨_, rfl⟩
  | verbatim | word | directive => cases hgoes

end Cpu

section Moves

variable {code : List Line} {p q : Nat} {l : Line} {a : Label} {r : Reg}

theorem Line.GoesOn.ne_call (h : l.GoesOn) (f : Label) : l ≠ callLine f := by
  rintro rfl
  exact h.1 rfl

theorem Line.GoesOn.ne_return (h : l.GoesOn) : l ≠ returnLine := by
  rintro rfl
  exact h.1 rfl

theorem moves_goesOn (hl : code[p]? = some l) (h : l.GoesOn) : Moves code p q ↔ q = p + 1 := by
  constructor
  · rintro (⟨hl', -, -, hstep⟩ | ⟨hl', -⟩)
    · cases hl.symm.trans hl'
      exact Cpu.step_pc_of_goesOn hl' h hstep
    · exact absurd (Option.some.inj (hl.symm.trans hl')) (h.ne_call _)
  · rintro rfl
    obtain ⟨t, ht⟩ := Cpu.exists_step_of_goesOn (s := Cpu.standing p 0) 0 hl h
    have hpc : t.pc = p + 1 := Cpu.step_pc_of_goesOn hl h ht
    rw [← hpc]
    exact .step (s := Cpu.standing p 0) hl (fun f _ => h.ne_call f) h.ne_return ht

theorem moves_call (hl : code[p]? = some (callLine a)) (ha : a.isEntry = true) :
    Moves code p q ↔ q = p + 1 := by
  constructor
  · rintro (⟨hl', hcall, -, -⟩ | -)
    · exact absurd (Option.some.inj (hl'.symm.trans hl)) (hcall a ha)
    · rfl
  · rintro rfl
    exact .call hl ha

theorem moves_jump (hl : code[p]? = some (callLine a)) (ha : a.isEntry = false) :
    Moves code p q ↔ q = lineOf code a := by
  have hcall (f : Label) (hf : f.isEntry = true) : callLine a ≠ callLine f := by
    rintro heq
    cases heq
    exact Bool.false_ne_true (ha.symm.trans hf)
  constructor
  · rintro (⟨hl', -, -, hstep⟩ | ⟨hl', hf⟩)
    · cases hl.symm.trans hl'
      rw [Cpu.step_instr hl'] at hstep
      cases hstep
      rfl
    · exact absurd (Option.some.inj (hl.symm.trans hl')) (hcall _ hf)
  · rintro rfl
    have hstep :
        (Cpu.standing p 0).step code 0 = some ((Cpu.standing p 0).jump (lineOf code a)) := by
      rw [Cpu.step_instr hl]
      rfl
    exact .step hl hcall (fun heq => by cases heq) hstep

/-- A conditional jump goes on or jumps, as its register says. -/
theorem moves_branch (hl : code[p]? = some (.instr (.movZero ip r (.addr a))) ∨
      code[p]? = some (.instr (.movNonzero ip r (.addr a)))) :
    Moves code p q ↔ q = p + 1 ∨ q = lineOf code a := by
  constructor
  · rintro (⟨hl', -, -, hstep⟩ | ⟨hl', -⟩)
    · rcases hl with hl | hl
      all_goals
        rw [Cpu.step_instr hl] at hstep
        cases hstep
        split
      · exact .inr rfl
      · exact .inl rfl
      · exact .inl rfl
      · exact .inr rfl
    · rcases hl with hl | hl <;> cases hl.symm.trans hl'
  · intro hq
    -- the register is zero in the one state and not in the other
    obtain ⟨v, hv⟩ : ∃ v t, (Cpu.standing p v).step code 0 = some t ∧ t.pc = q := by
      rcases hl with hl | hl <;> rcases hq with rfl | rfl
      · exact ⟨1, (Cpu.standing p 1).next, by rw [Cpu.step_instr hl]; rfl, rfl⟩
      · exact ⟨0, (Cpu.standing p 0).jump _, by rw [Cpu.step_instr hl]; rfl, rfl⟩
      · exact ⟨0, (Cpu.standing p 0).next, by rw [Cpu.step_instr hl]; rfl, rfl⟩
      · exact ⟨1, (Cpu.standing p 1).jump _, by rw [Cpu.step_instr hl]; rfl, rfl⟩
    obtain ⟨t, hstep, rfl⟩ := hv
    rcases hl with hl | hl
    all_goals
      exact .step (s := Cpu.standing p v) hl (fun f _ heq => by cases heq)
        (fun heq => by cases heq) hstep

theorem moves_jumpsTo (hl : code[p]? = some l)
    (hto : l.jumpsTo? = some a) (ha : a.isEntry = false) :
    Moves code p q ↔ (l.isJump = false ∧ q = p + 1) ∨ q = lineOf code a := by
  obtain rfl | ⟨c, rfl | rfl⟩ := l.jump_cases hto
  · rw [moves_jump hl ha]
    simp [Line.isJump]
  · rw [moves_branch (.inl hl)]
    simp [Line.isJump]
  · rw [moves_branch (.inr hl)]
    simp [Line.isJump]

theorem not_moves_return (hl : code[p]? = some returnLine) : ¬ Moves code p q := by
  rintro (⟨hl', -, hreturn, -⟩ | ⟨hl', -⟩)
  · exact hreturn (Option.some.inj (hl'.symm.trans hl))
  · cases hl'.symm.trans hl

theorem not_moves_halt (hl : code[p]? = some (.instr .halt)) : ¬ Moves code p q := by
  rintro (⟨hl', -, -, hstep⟩ | ⟨hl', -⟩)
  · rw [Cpu.step_instr hl] at hstep
    cases hstep
  · cases hl'.symm.trans hl

end Moves

/-! ### Ways -/

/-- A way that leaves no line but those from `a` to `b`; its end may lie outside. -/
def Way (code : List Line) (a b : Nat) : Nat → Nat → Prop :=
  Relation.ReflTransGen fun p q => (a ≤ p ∧ p < b) ∧ Moves code p q

section Ways

variable {code : List Line} {a a' b b' e p q : Nat} {Out Out' I : Nat → Prop}

theorem Way.refl : Way code a b p p := Relation.ReflTransGen.refl

theorem Way.trans {r : Nat} (h : Way code a b p q) (h' : Way code a b q r) : Way code a b p r :=
  Relation.ReflTransGen.trans h h'

theorem Way.single (hp : a ≤ p ∧ p < b) (h : Moves code p q) : Way code a b p q :=
  Relation.ReflTransGen.single ⟨hp, h⟩

theorem Way.widen (h : Way code a b p q) (ha : a' ≤ a) (hb : b ≤ b') : Way code a' b' p q := by
  refine Relation.ReflTransGen.mono (fun p q hpq => ?_) _ _ h
  exact ⟨⟨Nat.le_trans ha hpq.1.1, Nat.lt_of_lt_of_le hpq.1.2 hb⟩, hpq.2⟩

/-- The ways from the first line of a range lead to its lines and to those of `Out`. -/
def Part (code : List Line) (a b : Nat) (Out : Nat → Prop) : Prop :=
  ∀ q, Way code a b a q → (a ≤ q ∧ q < b) ∨ Out q

theorem Part.weaken (h : Part code a b Out) (hout : ∀ q, Out q → Out' q) : Part code a b Out' :=
  fun q hq => (h q hq).imp_right (hout q)

theorem Part.empty (a : Nat) : Part code a a (· = a) := by
  intro q hq
  refine .inr ?_
  induction hq with
  | refl => rfl
  | tail _ hstep => exact absurd hstep.1.2 (Nat.not_lt_of_le hstep.1.1)

/-- One line. -/
theorem Part.line (h : ∀ q, Moves code p q → Out q) : Part code p (p + 1) Out := by
  intro q hq
  induction hq with
  | refl => exact .inl ⟨Nat.le_refl p, Nat.lt_succ_self p⟩
  | @tail q q' _ hstep _ =>
    obtain rfl : q = p := Nat.le_antisymm (Nat.le_of_lt_succ hstep.1.2) hstep.1.1
    exact .inr (h q' hstep.2)

/-- Lines that all lead to each other or to the end. -/
theorem Part.closed (hab : a ≤ b) (h : ∀ p q, a ≤ p → p < b → Moves code p q → a ≤ q ∧ q ≤ b) :
    Part code a b (· = b) := by
  have hall : ∀ q, Way code a b a q → a ≤ q ∧ q ≤ b := by
    intro q hq
    induction hq with
    | refl => exact ⟨Nat.le_refl a, hab⟩
    | tail _ hstep _ => exact h _ _ hstep.1.1 hstep.1.2 hstep.2
  intro q hq
  obtain ⟨haq, hqb⟩ := hall q hq
  rcases Nat.lt_or_eq_of_le hqb with hlt | rfl
  · exact .inl ⟨haq, hlt⟩
  · exact .inr rfl

/-- Two ranges one behind the other. The second one counts only if the first one leads to it. -/
theorem Part.append (h : Part code a b Out) (hnext : Out b → Part code b e Out') (hab : a ≤ b)
    (hbe : b ≤ e) (hout : ∀ q, Out q → q = b ∨ Out' q) (houtside : ∀ q, Out' q → q < a ∨ e ≤ q) :
    Part code a e Out' := by
  have hsplit : ∀ q, Way code a e a q → Way code a b a q ∨ Out b ∧ Way code b e b q := by
    intro q hq
    induction hq with
    | refl => exact .inl .refl
    | @tail q q' _ hstep ih =>
      obtain ⟨⟨haq, hqe⟩, hmove⟩ := hstep
      rcases ih with hfirst | ⟨hb, hsecond⟩
      · rcases h q hfirst with hin | hq
        · exact .inl (hfirst.trans (.single hin hmove))
        · rcases hout q hq with rfl | hq'
          · exact .inr ⟨hq, .single ⟨Nat.le_refl _, hqe⟩ hmove⟩
          · have := houtside q hq'
            omega
      · rcases hnext hb q hsecond with hin | hq'
        · exact .inr ⟨hb, hsecond.trans (.single hin hmove)⟩
        · have := houtside q hq'
          omega
  intro q hq
  rcases hsplit q hq with hfirst | ⟨hb, hsecond⟩
  · rcases h q hfirst with ⟨haq, hqb⟩ | hq'
    · exact .inl ⟨haq, by omega⟩
    · rcases hout q hq' with rfl | hq''
      · rcases Nat.lt_or_eq_of_le hbe with hlt | rfl
        · exact .inl ⟨hab, hlt⟩
        · exact (hnext hq' _ .refl).imp_left fun hin => ⟨by omega, hin.2⟩
      · exact .inr hq''
  · rcases hnext hb q hsecond with ⟨hbq, hqe⟩ | hq'
    · exact .inl ⟨by omega, hqe⟩
    · exact .inr hq'

/-- A range with jumps to and fro: `I` holds of the lines at which its parts are entered and left.
-/
theorem Part.of_parts (ha : I a)
    (hparts : ∀ p, I p → a ≤ p → p < b → ∃ e, p < e ∧ e ≤ b ∧ Part code p e I) :
    Part code a b fun q => I q ∧ ¬ (a ≤ q ∧ q < b) := by
  have hall : ∀ q, Way code a b a q →
      I q ∨ ∃ p e, a ≤ p ∧ e ≤ b ∧ Part code p e I ∧ Way code p e p q ∧ p ≤ q ∧ q < e := by
    intro q hq
    induction hq with
    | refl => exact .inl ha
    | @tail q q' _ hstep ih =>
      obtain ⟨⟨haq, hqb⟩, hmove⟩ := hstep
      have hinside {p e : Nat} (hap : a ≤ p) (heb : e ≤ b) (hpart : Part code p e I)
          (hway : Way code p e p q)
          (hin : p ≤ q ∧ q < e) : I q' ∨
          ∃ p e, a ≤ p ∧ e ≤ b ∧ Part code p e I ∧ Way code p e p q' ∧ p ≤ q' ∧ q' < e := by
        have hway' := hway.trans (.single hin hmove)
        rcases hpart q' hway' with hin' | hI
        · exact .inr ⟨p, e, hap, heb, hpart, hway', hin'⟩
        · exact .inl hI
      rcases ih with hI | ⟨p, e, hap, heb, hpart, hway, hin⟩
      · obtain ⟨e, hlt, heb, hpart⟩ := hparts q hI haq hqb
        exact hinside haq heb hpart .refl ⟨Nat.le_refl q, hlt⟩
      · exact hinside hap heb hpart hway hin
  intro q hq
  by_cases hin : a ≤ q ∧ q < b
  · exact .inl hin
  · refine .inr ⟨?_, hin⟩
    rcases hall q hq with hI | ⟨p, e, hap, heb, -, -, hpq, hqe⟩
    · exact hI
    · exact absurd ⟨Nat.le_trans hap hpq, Nat.lt_of_lt_of_le hqe heb⟩ hin

/-! ### Where ways lead -/

/-- The ways from the first line of a range leave it for the lines of `Out`, and for each of these
there is one. -/
structure Leaves (code : List Line) (a b : Nat) (Out : Nat → Prop) : Prop where
  part : Part code a b Out
  way : ∀ q, Out q → Way code a b a q

namespace Leaves

variable {Out₁ Out₂ : Nat → Prop}

theorem congr (h : Leaves code a b Out) (hout : ∀ q, Out q ↔ Out' q) : Leaves code a b Out' :=
  ⟨h.part.weaken fun q => (hout q).mp, fun q hq => h.way q ((hout q).mpr hq)⟩

theorem nil (a : Nat) : Leaves code a a (· = a) := ⟨.empty a, fun _ hq => hq ▸ .refl⟩

/-- No lines lead to where they start. -/
theorem nil_iff (h : Leaves code a a Out) : Out q ↔ q = a := by
  constructor
  · intro hq
    have hin := Part.empty a q (h.way q hq)
    omega
  · rintro rfl
    exact (h.part q .refl).resolve_left (by omega)

theorem line (h : ∀ q, Moves code p q ↔ Out q) : Leaves code p (p + 1) Out where
  part := .line fun q => (h q).mp
  way q hq := .single ⟨Nat.le_refl p, Nat.lt_succ_self p⟩ ((h q).mpr hq)

/-- Two ranges one behind the other. -/
theorem append (h : Leaves code a b Out₁) (h' : Out₁ b → Leaves code b e Out₂) (hab : a ≤ b)
    (hbe : b ≤ e) (hout : ∀ q, Out q ↔ (Out₁ q ∧ q ≠ b) ∨ (Out₁ b ∧ Out₂ q))
    (houtside : ∀ q, Out q → q < a ∨ e ≤ q) : Leaves code a e Out where
  part := by
    refine h.part.append (fun hb => (h' hb).part.weaken fun q hq => (hout q).mpr (.inr ⟨hb, hq⟩))
      hab hbe (fun q hq => ?_) houtside
    by_cases heq : q = b
    · exact .inl heq
    · exact .inr ((hout q).mpr (.inl ⟨hq, heq⟩))
  way q hq := by
    rcases (hout q).mp hq with ⟨hq, -⟩ | ⟨hb, hq⟩
    · exact (h.way q hq).widen (Nat.le_refl a) hbe
    · exact ((h.way b hb).widen (Nat.le_refl a) hbe).trans
        (((h' hb).way q hq).widen hab (Nat.le_refl e))

/-- A range in front of which lines are passed. -/
theorem prepend (h : Leaves code a b (· = b)) (h' : Leaves code b e Out) (hab : a ≤ b) (hbe : b ≤ e)
    (houtside : ∀ q, Out q → q < a ∨ e ≤ q) : Leaves code a e Out :=
  h.append (fun _ => h') hab hbe (fun q => by simp) houtside

/-- A line behind a range, which leads to one line. -/
theorem snoc {P : Prop} {J : Nat → Prop} {t : Nat} (h : Leaves code a b fun q => P ∧ q = b ∨ J q)
    (hline : Leaves code b (b + 1) (· = t)) (hab : a ≤ b) (ht : t < a ∨ b + 1 ≤ t)
    (hJ : ∀ q, J q → q < a ∨ b + 1 ≤ q) : Leaves code a (b + 1) fun q => P ∧ q = t ∨ J q := by
  have hb : ¬J b := fun hb => by have := hJ b hb; omega
  refine h.append (fun _ => hline) hab (Nat.le_succ b) (fun q => ?_) ?_
  · have hne : J q → q ≠ b := fun hq => by have := hJ q hq; omega
    constructor
    · rintro (⟨hP, rfl⟩ | hq)
      · exact .inr ⟨.inl ⟨hP, rfl⟩, rfl⟩
      · exact .inl ⟨.inr hq, hne hq⟩
    · rintro (⟨⟨-, rfl⟩ | hq, hne⟩ | ⟨⟨hP, -⟩ | hq, rfl⟩)
      · exact absurd rfl hne
      · exact .inr hq
      · exact .inl ⟨hP, rfl⟩
      · exact absurd hq hb
  · rintro q (⟨-, rfl⟩ | hq)
    · exact ht
    · exact hJ q hq

/-- A range with jumps to and fro: `I` holds of the lines at which its parts are entered and left.
-/
theorem of_parts (ha : I a) (hparts : ∀ p, I p → a ≤ p → p < b → ∃ e Out, p < e ∧ e ≤ b ∧
      Leaves code p e Out ∧ ∀ q, Out q → I q) (hway : ∀ q, I q → Way code a b a q) :
    Leaves code a b fun q => I q ∧ ¬(a ≤ q ∧ q < b) where
  part := by
    refine .of_parts ha fun p hp hap hpb => ?_
    obtain ⟨e, Out, hlt, hle, hleaves, hout⟩ := hparts p hp hap hpb
    exact ⟨e, hlt, hle, hleaves.part.weaken hout⟩
  way q hq := hway q hq.1

/-! Shapes of branches and loops. Each ends in a line that is passed, a label that is jumped to. -/

section Shapes

variable {B F R : Nat → Prop} {d x : Nat}

/-- Lines that may be skipped. -/
theorem skip (hhead : Leaves code a e fun q => q = e ∨ q = d) (hbody : Leaves code e d B)
    (hlabel : Leaves code d (d + 1) (· = d + 1)) (hae : a < e) (hed : e ≤ d)
    (hB : ∀ q, B q → q = d ∨ q < a ∨ d + 1 ≤ q) :
    Leaves code a (d + 1) fun q => q = d + 1 ∨ B q ∧ q ≠ d := by
  have hrest : Leaves code e (d + 1) fun q => B d ∧ q = d + 1 ∨ B q ∧ q ≠ d := by
    refine hbody.append (fun _ => hlabel) hed (Nat.le_succ d) (fun q => or_comm) ?_
    rintro q (⟨-, rfl⟩ | ⟨hq, hne⟩)
    · exact .inr (Nat.le_refl _)
    · have := hB q hq
      omega
  have hskip : Way code a (d + 1) a d := (hhead.way d (.inr rfl)).widen (Nat.le_refl a) (by omega)
  have henter : Way code a (d + 1) a e := (hhead.way e (.inl rfl)).widen (Nat.le_refl a) (by omega)
  refine (of_parts (I := fun q => q = a ∨ q = e ∨ q = d ∨ q = d + 1 ∨ B q ∧ q ≠ d)
    (.inl rfl) ?_ ?_).congr fun q => ?_
  · rintro p (rfl | rfl | rfl | rfl | ⟨hp, hne⟩) hap hpb
    · exact ⟨e, _, hae, by omega, hhead, fun q hq => hq.elim (.inr ∘ .inl) (.inr ∘ .inr ∘ .inl)⟩
    · exact ⟨d + 1, _, by omega, Nat.le_refl _, hrest,
        fun q hq => .inr (.inr (.inr (hq.imp_left And.right)))⟩
    · exact ⟨p + 1, _, by omega, Nat.le_refl _, hlabel, fun q hq => .inr (.inr (.inr (.inl hq)))⟩
    · omega
    · have := hB p hp
      omega
  · rintro q (rfl | rfl | rfl | rfl | hq)
    · exact .refl
    · exact henter
    · exact hskip
    · exact hskip.trans ((hlabel.way _ rfl).widen (by omega) (Nat.le_refl _))
    · exact henter.trans ((hrest.way q (.inr hq)).widen (by omega) (Nat.le_refl _))
  · constructor
    · rintro ⟨rfl | rfl | rfl | rfl | hq, hout⟩
      · omega
      · omega
      · omega
      · exact .inl rfl
      · exact .inr hq
    · rintro (rfl | ⟨hq, hne⟩)
      · exact ⟨.inr (.inr (.inr (.inl rfl))), by omega⟩
      · have := hB q hq
        exact ⟨.inr (.inr (.inr (.inr ⟨hq, hne⟩))), by omega⟩

/-- Lines of which either the first or the second are passed. -/
theorem fork (hhead : Leaves code a e fun q => q = e ∨ q = x) (hfirst : Leaves code e x F)
    (hsecond : Leaves code x d B) (hlabel : Leaves code d (d + 1) (· = d + 1)) (hae : a < e)
    (hex : e < x) (hxd : x < d) (hF : ∀ q, F q → q = d ∨ q < a ∨ d + 1 ≤ q)
    (hB : ∀ q, B q → q = d ∨ q < a ∨ d + 1 ≤ q) :
    Leaves code a (d + 1) fun q => (F d ∨ B d) ∧ q = d + 1 ∨ (F q ∨ B q) ∧ q ≠ d := by
  have hleft : Way code a (d + 1) a e := (hhead.way e (.inl rfl)).widen (Nat.le_refl a) (by omega)
  have hright : Way code a (d + 1) a x := (hhead.way x (.inr rfl)).widen (Nat.le_refl a) (by omega)
  have hout (q : Nat) (hq : F q ∨ B q) : Way code a (d + 1) a q := by
    rcases hq with hq | hq
    · exact hleft.trans ((hfirst.way q hq).widen (by omega) (by omega))
    · exact hright.trans ((hsecond.way q hq).widen (by omega) (by omega))
  refine (of_parts (I := fun q => q = a ∨ q = e ∨ q = x ∨ F q ∨ B q ∨ (F d ∨ B d) ∧ q = d + 1)
    (.inl rfl) ?_ ?_).congr fun q => ?_
  · rintro p (rfl | rfl | rfl | hp | hp | ⟨-, rfl⟩) hap hpb
    · exact ⟨e, _, hae, by omega, hhead, fun q hq => hq.elim (.inr ∘ .inl) (.inr ∘ .inr ∘ .inl)⟩
    · exact ⟨x, _, hex, by omega, hfirst, fun q hq => .inr (.inr (.inr (.inl hq)))⟩
    · exact ⟨d, _, hxd, by omega, hsecond, fun q hq => .inr (.inr (.inr (.inr (.inl hq))))⟩
    · obtain rfl : p = d := by have := hF p hp; omega
      exact ⟨p + 1, _, by omega, Nat.le_refl _, hlabel,
        fun q hq => .inr (.inr (.inr (.inr (.inr ⟨.inl hp, hq⟩))))⟩
    · obtain rfl : p = d := by have := hB p hp; omega
      exact ⟨p + 1, _, by omega, Nat.le_refl _, hlabel,
        fun q hq => .inr (.inr (.inr (.inr (.inr ⟨.inr hp, hq⟩))))⟩
    · omega
  · rintro q (rfl | rfl | rfl | hq | hq | ⟨hd, rfl⟩)
    · exact .refl
    · exact hleft
    · exact hright
    · exact hout q (.inl hq)
    · exact hout q (.inr hq)
    · exact (hout d hd).trans ((hlabel.way _ rfl).widen (by omega) (Nat.le_refl _))
  · have hF' := hF q
    have hB' := hB q
    constructor
    · rintro ⟨rfl | rfl | rfl | hq | hq | hq, hout⟩
      · omega
      · omega
      · omega
      · exact .inr ⟨.inl hq, by omega⟩
      · exact .inr ⟨.inr hq, by omega⟩
      · exact .inl hq
    · rintro (hq | ⟨hq | hq, hne⟩)
      · exact ⟨.inr (.inr (.inr (.inr (.inr hq)))), by omega⟩
      · exact ⟨.inr (.inr (.inr (.inl hq))), by have := hF' hq; omega⟩
      · exact ⟨.inr (.inr (.inr (.inr (.inl hq)))), by have := hB' hq; omega⟩

/-- Rounds that go back to the first line or to the label at the end. -/
theorem loop (hhead : Leaves code a e B) (hrounds : Leaves code e x R)
    (hlabel : Leaves code x (x + 1) (· = x + 1)) (hae : a < e) (hex : e < x)
    (hB : ∀ q, B q → q = e ∨ q = x) (hR : ∀ q, R q → q = a ∨ q = x) :
    Leaves code a (x + 1) fun q => (B x ∨ B e ∧ R x) ∧ q = x + 1 := by
  have henter (q : Nat) (hq : B q) : Way code a (x + 1) a q :=
    (hhead.way q hq).widen (Nat.le_refl a) (by omega)
  have hleave (h : B x ∨ B e ∧ R x) : Way code a (x + 1) a x := by
    rcases h with h | ⟨he, hx⟩
    · exact henter x h
    · exact (henter e he).trans ((hrounds.way x hx).widen (by omega) (by omega))
  refine (of_parts (I := fun q => q = a ∨ B e ∧ q = e ∨ (B x ∨ B e ∧ R x) ∧ (q = x ∨ q = x + 1))
    (.inl rfl) ?_ ?_).congr fun q => ?_
  · rintro p (rfl | ⟨he, rfl⟩ | ⟨hx, rfl | rfl⟩) hap hpb
    · refine ⟨e, _, hae, by omega, hhead, fun q hq => ?_⟩
      rcases hB q hq with rfl | rfl
      · exact .inr (.inl ⟨hq, rfl⟩)
      · exact .inr (.inr ⟨.inl hq, .inl rfl⟩)
    · refine ⟨x, _, hex, by omega, hrounds, fun q hq => ?_⟩
      rcases hR q hq with rfl | rfl
      · exact .inl rfl
      · exact .inr (.inr ⟨.inr ⟨he, hq⟩, .inl rfl⟩)
    · exact ⟨p + 1, _, by omega, Nat.le_refl _, hlabel, fun q hq => .inr (.inr ⟨hx, .inr hq⟩)⟩
    · omega
  · rintro q (rfl | ⟨he, rfl⟩ | ⟨hx, rfl | rfl⟩)
    · exact .refl
    · exact henter q he
    · exact hleave hx
    · exact (hleave hx).trans ((hlabel.way _ rfl).widen (by omega) (Nat.le_refl _))
  · constructor
    · rintro ⟨rfl | ⟨-, rfl⟩ | ⟨hx, rfl | rfl⟩, hout⟩
      · omega
      · omega
      · omega
      · exact ⟨hx, rfl⟩
    · rintro ⟨hx, rfl⟩
      exact ⟨.inr (.inr ⟨hx, .inr rfl⟩), by omega⟩

end Shapes

end Leaves

end Ways

/-! ### Runs go along ways -/

/-- A run in which calls return goes along the graph. -/
theorem Cpu.Runs.way {code : List Line} {outer inner : Nat → Prop} {s t : Cpu}
    (h : Runs code outer inner s t) : Relation.ReflTransGen (Moves code) s.pc t.pc := by
  induction h with
  | refl => exact .refl
  | step _ hl hcall hreturn hstep _ ih => exact .head (.step hl hcall hreturn hstep) ih
  | call _ hl hf _ _ _ _ _ hpc _ _ ih => exact .head (hpc ▸ .call hl hf) ih

/-- A way that starts in a part stays in it until it leaves it. -/
theorem Part.reach {code : List Line} {a b q : Nat} {Out : Nat → Prop} (h : Part code a b Out)
    (hq : Relation.ReflTransGen (Moves code) a q) :
    Way code a b a q ∨ ∃ p, Way code a b a p ∧ Out p ∧ ¬ (a ≤ p ∧ p < b) := by
  induction hq with
  | refl => exact .inl .refl
  | @tail q q' _ hmove ih =>
    rcases ih with hway | hout
    · by_cases hin : a ≤ q ∧ q < b
      · exact .inl (hway.trans (.single hin hmove))
      · exact .inr ⟨q, hway, (h q hway).resolve_left hin, hin⟩
    · exact .inr hout

namespace Leaves

variable {code : List Line} {a b q : Nat} {P : Prop}

/-- A part that can be left at its end only, and only if `P`. -/
theorem reach_iff (h : Leaves code a b fun q => P ∧ q = b) :
    Relation.ReflTransGen (Moves code) a b ↔ P := by
  constructor
  · intro hreach
    rcases h.part.reach hreach with hway | ⟨p, -, hp, -⟩
    · exact (h.part b hway).elim (fun hb => absurd hb.2 (Nat.lt_irrefl b)) And.left
    · exact hp.1
  · intro hP
    exact Relation.ReflTransGen.mono (fun _ _ hstep => hstep.2) _ _ (h.way b ⟨hP, rfl⟩)

theorem stays (h : Leaves code a b fun q => P ∧ q = b) (hP : ¬P)
    (hq : Relation.ReflTransGen (Moves code) a q) : a ≤ q ∧ q < b := by
  rcases h.part.reach hq with hway | ⟨p, -, hp, -⟩
  · exact (h.part q hway).resolve_right fun hout => hP hout.1
  · exact absurd hp.1 hP

end Leaves

end WordC.Asm
