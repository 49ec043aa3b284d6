import WordC.Proofs.CallerState
import WordC.Proofs.CompileSteps

/-!
# The ledger of labels

While the compiler works, a ledger tells which labels are still due: a label becomes due when it
gets its number, or at the start if it is the label of a function, and it stops to be due when its
line is written. All labels that lines use, that open loops name or that stand in the tables are in
the code already, due, or in the data section. The ledger is an account that every step of an
expression or a statement keeps.
-/

namespace WordC

open Asm Compile Step

/-- Where the labels stand while the compiler works. The labels `known` are those that the steps at
hand may use, and `due` are those that are still to be placed in the code. -/
structure Ledger (known due : List Label) (c : Compiler) : Prop where
  nodup : (placed c.code.toList ++ due).Nodup
  code : ∀ l ∈ placed c.code.toList ++ due, l.isCode = true
  /-- A number that is not given out yet is in no label. -/
  numbers : ∀ stem n, .minted stem n ∈ placed c.code.toList ++ due → n < c.labelCount
  covered : ∀ l, l ∈ known ∨ c.Notes l ∨ l ∈ addressed c.code.toList →
    l ∈ placed c.code.toList ++ due ∨ l ∈ placed c.data.toList
  functions : ∀ f l, c.functions.get? f = some l → l = functionLabel f
  tells : ∀ line ∈ c.code.toList, line.Tells
  data : ∀ line ∈ c.data.toList, line.isDatum = true

namespace Ledger

variable {known due : List Label} {c c' : Compiler} {l : Label}

/-- A change that leaves the code alone. It may add lines to the data section and note labels that
are known or placed there. -/
theorem change (h : Ledger known due c) (lines : List Line)
    (hlines : ∀ line ∈ lines, line.isDatum = true) (hcode : c'.code = c.code)
    (hdata : c'.data.toList = c.data.toList ++ lines) (hcount : c.labelCount ≤ c'.labelCount)
    (hfunctions : ∀ f l, c'.functions.get? f = some l → l = functionLabel f)
    (hnotes : ∀ l, c'.Notes l → c.Notes l ∨ l ∈ known ∨ l ∈ placed lines) :
    Ledger (placed lines ++ known) due c' where
  nodup := hcode ▸ h.nodup
  code := hcode ▸ h.code
  numbers stem n hn := Nat.lt_of_lt_of_le (h.numbers stem n (hcode ▸ hn)) hcount
  covered l hl := by
    have hold : c.Notes l ∨ l ∈ known ∨ l ∈ addressed c.code.toList ∨ l ∈ placed lines := by
      rcases hl with hl | hl | hl
      · rcases List.mem_append.mp hl with hl | hl
        · exact .inr (.inr (.inr hl))
        · exact .inr (.inl hl)
      · rcases hnotes l hl with hl | hl | hl
        · exact .inl hl
        · exact .inr (.inl hl)
        · exact .inr (.inr (.inr hl))
      · exact .inr (.inr (.inl (hcode ▸ hl)))
    rw [hcode, hdata, placed_append, List.mem_append (s := placed c.data.toList)]
    rcases hold with hl | hl | hl | hl
    · exact (h.covered l (.inr (.inl hl))).imp_right .inl
    · exact (h.covered l (.inl hl)).imp_right .inl
    · exact (h.covered l (.inr (.inr hl))).imp_right .inl
    · exact .inr (.inr hl)
  functions := hfunctions
  tells := hcode ▸ h.tells
  data := by
    rw [hdata]
    exact List.forall_mem_append.mpr ⟨h.data, hlines⟩

/-- A change of registers and of what no label depends on. -/
theorem same (h : Ledger known due c) (hcode : c'.code = c.code) (hdata : c'.data = c.data)
    (hcount : c.labelCount ≤ c'.labelCount) (hfunctions : c'.functions = c.functions)
    (hnotes : ∀ l, c'.Notes l → c.Notes l ∨ l ∈ known) : Ledger known due c' :=
  h.change [] (List.forall_mem_nil _) hcode (by rw [hdata, List.append_nil]) hcount
    (hfunctions ▸ h.functions) fun l hl => (hnotes l hl).imp_right .inl

theorem know (h : Ledger known due c) (hl : c.Notes l) : Ledger (l :: known) due c := by
  refine { h with covered := fun m hm => ?_ }
  rcases hm with hm | hm
  · rcases List.mem_cons.mp hm with rfl | hm
    · exact h.covered m (.inr (.inl hl))
    · exact h.covered m (.inl hm)
  · exact h.covered m (.inr hm)

/-- A label with the next number is new, and it is due. -/
theorem mint (h : Ledger known due c) {stem : Stem} (hstem : stem ∈ Stem.known) :
    Ledger (.minted stem c.labelCount :: known) (.minted stem c.labelCount :: due) { c with
      labelCount := c.labelCount + 1 } := by
  have hperm : (placed c.code.toList ++ .minted stem c.labelCount :: due).Perm
      (.minted stem c.labelCount :: (placed c.code.toList ++ due)) := List.perm_middle
  have hnew : .minted stem c.labelCount ∉ placed c.code.toList ++ due := by
    intro hmem
    exact Nat.lt_irrefl _ (h.numbers stem _ hmem)
  refine { h with nodup := ?_, code := ?_, numbers := ?_, covered := ?_ }
  · exact hperm.nodup_iff.mpr (List.nodup_cons.mpr ⟨hnew, h.nodup⟩)
  · intro l hl
    rcases List.mem_cons.mp (hperm.mem_iff.mp hl) with rfl | hl
    · exact Label.isCode_of_isNumbered (decide_eq_true hstem)
    · exact h.code l hl
  · intro stem' n hn
    rcases List.mem_cons.mp (hperm.mem_iff.mp hn) with heq | hn
    · cases heq
      exact Nat.lt_succ_self _
    · exact Nat.lt_succ_of_lt (h.numbers stem' n hn)
  · intro l hl
    rw [hperm.mem_iff, List.mem_cons]
    rcases hl with hl | hl
    · rcases List.mem_cons.mp hl with rfl | hl
      · exact .inl (.inl rfl)
      · exact (h.covered l (.inl hl)).imp_left .inr
    · exact (h.covered l (.inr hl)).imp_left .inr

/-- A due label is placed. -/
theorem place (front back : List Label) (h : Ledger known (front ++ l :: back) c) :
    Ledger known (front ++ back) { c with code := c.code.push (.label l) } := by
  have hperm : (placed (c.code.push (.label l)).toList ++ (front ++ back)).Perm
      (placed c.code.toList ++ (front ++ l :: back)) := by
    rw [placed_push_label, List.append_assoc, List.singleton_append]
    exact .append_left _ List.perm_middle.symm
  have hl : l.isCode = true := h.code l (by simp)
  refine { h with
    nodup := hperm.nodup_iff.mpr h.nodup, code := ?_, numbers := ?_, covered := ?_, tells := ?_ }
  · exact fun m hm => h.code m (hperm.mem_iff.mp hm)
  · exact fun stem n hn => h.numbers stem n (hperm.mem_iff.mp hn)
  · intro m hm
    rw [addressed_push, show (Line.label l).labels = [] from rfl, List.append_nil] at hm
    exact (h.covered m hm).imp_left hperm.mem_iff.mpr
  · rw [Array.toList_push]
    exact List.forall_mem_append.mpr
      ⟨h.tells, List.forall_mem_singleton.mpr (Line.tells_label (.inl hl))⟩

/-- A line that places no label may use the known ones. -/
theorem line (h : Ledger known due c) {line : Line} (htells : line.Tells)
    (hlabel : line.label? = none) (hlabels : ∀ l ∈ line.labels, l ∈ known) :
    Ledger known due { c with code := c.code.push line } := by
  have hplaced : placed (c.code.push line).toList = placed c.code.toList :=
    placed_push c.code hlabel
  refine { h with nodup := ?_, code := ?_, numbers := ?_, covered := ?_, tells := ?_ }
  · exact hplaced ▸ h.nodup
  · exact hplaced ▸ h.code
  · exact hplaced ▸ h.numbers
  · intro l hl
    rw [addressed_push, List.mem_append] at hl
    rw [hplaced]
    rcases hl with hl | hl | hl | hl
    · exact h.covered l (.inl hl)
    · exact h.covered l (.inr (.inl hl))
    · exact h.covered l (.inr (.inr hl))
    · exact h.covered l (.inl (hlabels l hl))
  · rw [Array.toList_push]
    exact List.forall_mem_append.mpr ⟨h.tells, List.forall_mem_singleton.mpr htells⟩

end Ledger

instance Ledger.stepRules : StepRules Ledger where
  line h hplain hlabels :=
    h.line (Line.tells_of_isPlain hplain) (Line.label?_of_isPlain hplain) hlabels
  mint h hstem := h.mint hstem
  place {_ front back _ _} h := h.place front back
  know h hl := h.know hl
  forget h hsub := { h with covered := fun l hl => h.covered l (hl.imp_left (hsub ·)) }
  change {_ _ lines _ _} h hbeside := h.change lines hbeside.datum hbeside.code hbeside.data
    hbeside.labels (hbeside.functions ▸ h.functions) hbeside.notes

/-! ### Steps that end in a value -/

namespace Compile

section Rules

variable {α β : Type} {P P' : Compiler → Prop} {Q : α → Compiler → Prop} {R : β → Compiler → Prop}

/-- A step that ends well leads from states with `P` to states with `Q`. -/
def Brings (P : Compiler → Prop) (step : Compile α) (Q : α → Compiler → Prop) : Prop :=
  ∀ c a c', P c → step c = (.ok a, c') → Q a c'

variable {x : Compile α} {f : α → Compile β}

theorem brings_bind (hx : Brings P x Q) (hf : ∀ a, Brings (Q a) (f a) R) :
    Brings P (x >>= f) R := by
  intro c b c' hc hrun
  obtain ⟨a, c₁, hxc, hfc⟩ := bind_eq_ok hrun
  exact hf a c₁ b c' (hx c a c₁ hc hxc) hfc

theorem brings_then {y : Compile β} {Q : Compiler → Prop} (hx : Brings P x fun _ => Q)
    (hy : Brings Q y R) : Brings P (x >>= fun _ => y) R := brings_bind hx fun _ => hy

theorem brings_pure {a : α} (h : ∀ c, P c → Q a c) : Brings P (pure a) Q := by
  intro c b c' hc hrun
  cases hrun
  exact h c hc

theorem brings_throw (e : CompileError) : Brings P (throw e) Q := by
  intro c a c' _ hrun
  cases hrun

/-- Nothing comes behind a step that fails. -/
theorem brings_failing (hx : Brings P x fun _ _ => False) : Brings P (x >>= f) R :=
  brings_bind hx fun _ _ _ _ hc => hc.elim

theorem brings_returning {a : α} (hf : Brings P (f a) R) : Brings P (pure a >>= f) R := by
  rw [pure_bind]
  exact hf

theorem brings_ite {p : Prop} [Decidable p] {y : Compile α} (hx : Brings P x Q)
    (hy : Brings P y Q) : Brings P (if p then x else y) Q := by
  split
  · exact hx
  · exact hy

/-- A step that looks at the state goes on from the state it has seen. -/
theorem brings_get {f : Compiler → Compile β} (hf : ∀ k, P k → Brings (· = k) (f k) R) :
    Brings P (get >>= f) R := by
  intro c b c' hc hrun
  rw [bind_ok (get_apply c)] at hrun
  exact hf c hc c b c' rfl hrun

theorem brings_at {k : Compiler} (hk : P k) (hx : Brings P x Q) : Brings (· = k) x Q := by
  rintro _ a c' rfl hrun
  exact hx _ a c' hk hrun

theorem brings_modify {f : Compiler → Compiler} {Q : Compiler → Prop} (h : ∀ c, P c → Q (f c)) :
    Brings P (modify f) fun _ => Q := by
  intro c a c' hc hrun
  cases hrun
  exact h c hc

theorem brings_modifyGet {f : Compiler → α × Compiler} (h : ∀ c, P c → Q (f c).1 (f c).2) :
    Brings P (modifyGet f) Q := by
  intro c a c' hc hrun
  cases hrun
  exact h c hc

theorem brings_mono {Q' : α → Compiler → Prop} (hx : Brings P x Q) (h : ∀ a c, Q a c → Q' a c) :
    Brings P x Q' :=
  fun c a c' hc hrun => h a c' (hx c a c' hc hrun)

end Rules

theorem Books.brings {α : Type} {I : Account} {known due left : List Label} {x : Compile α}
    (h : Books I known due left x) : Brings (I known due) x fun _ => I known left := by
  intro c a c' hc hrun
  have hvalue := (h c hc).value a
  rw [hrun] at hvalue
  exact hvalue rfl

end Compile

end WordC
