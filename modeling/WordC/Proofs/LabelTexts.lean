import Mathlib.Data.List.Nodup
import WordC.Proofs.Numerals
import WordC.Proofs.StackHeight

/-!
# The texts of labels

In a listing labels are told apart by their texts only. The texts of the labels that the compiler
numbers never meet the texts of labels that are made from names: the two start differently, and two
characters are enough to see it. Among the numbered ones the number behind the last underscore, and
what stands before it, can be read off again. So the line `L:` of a listing belongs to one label of
the code.
-/

namespace WordC.Asm

/-! ### Kinds of labels -/

/-- The stems that the compiler knows. -/
def Stem.known : List Stem :=
  [.mulLoop, .mulEnd, .divLoop, .divEnd, .divError, .divSkip, .modLoop, .modEnd, .modError,
    .modSkip, .andEnd, .retAddr, .elseBranch, .endIf, .whileStart, .whileEnd, .doStart,
    .doCondition, .doEnd, .forStart, .forIncrement, .forEnd]

/-- Labels with a number, for jumps inside a function and for the way back into it. -/
def Label.isNumbered : Label → Bool
  | minted stem _ => stem ∈ Stem.known
  | _ => false

/-- Labels of variables and arrays. -/
def Label.isData : Label → Bool
  | globalVar _ | globalArray _ | localArray _ _ _ => true
  | _ => false

/-- Labels of code: they are jumped to. -/
def Label.isCode (l : Label) : Bool := l.isNumbered || l.isEntry

theorem Label.isCode_of_isNumbered {l : Label} (h : l.isNumbered = true) : l.isCode = true := by
  rw [isCode, h, Bool.true_or]

theorem Label.isCode_of_isEntry {l : Label} (h : l.isEntry = true) : l.isCode = true := by
  rw [isCode, h, Bool.or_true]

theorem Label.isCode_cases {l : Label} (h : l.isCode = true) :
    l.isNumbered = true ∨ l.isEntry = true := by
  simpa [isCode] using h

/-! ### The first two characters -/

namespace Label

def lead (l : Label) : List Char := l.text.toList.take 2

/-- How labels start that are made from names. -/
def nameLeads : List (List Char) := [['m', 'a'], ['f', 'u'], ['v', 'a'], ['a', 'r']]

/-- Every stem is long enough to show its lead, which is not the lead of a name and not that of an
indented line. -/
theorem stem_lead : ∀ stem ∈ Stem.known, 2 ≤ stem.text.toList.length ∧
    stem.text.toList.take 2 ∉ nameLeads ∧
    (stem.text.toList.take 2).head?.any (· != '\t') = true := by
  decide

theorem toList_minted (stem : Stem) (n : Nat) :
    (minted stem n).text.toList = stem.text.toList ++ '_' :: Nat.toDigits 10 n := by
  show (stem.text ++ "_" ++ n.repr).toList = _
  rw [String.toList_append, String.toList_append, Nat.toList_repr, List.append_assoc]
  rfl

theorem lead_minted {stem : Stem} (h : stem ∈ Stem.known) (n : Nat) :
    (minted stem n).lead = stem.text.toList.take 2 := by
  rw [lead, toList_minted, List.take_append_of_le_length (stem_lead stem h).1]

variable {l m : Label}

theorem lead_entry (h : l.isEntry = true) : l.lead = ['m', 'a'] ∨ l.lead = ['f', 'u'] := by
  cases l with
  | main => exact .inl rfl
  | function name =>
    refine .inr ?_
    rw [lead, text, String.toList_append]
    rfl
  | _ => cases h

theorem lead_data (h : l.isData = true) : l.lead = ['v', 'a'] ∨ l.lead = ['a', 'r'] := by
  cases l with
  | globalVar name =>
    refine .inl ?_
    rw [lead, text, String.toList_append]
    rfl
  | globalArray name =>
    refine .inr ?_
    rw [lead, text, String.toList_append]
    rfl
  | localArray f name n =>
    refine .inr ?_
    rw [lead, text]
    simp only [String.toList_append, List.append_assoc]
    rfl
  | _ => cases h

theorem lead_numbered (h : l.isNumbered = true) :
    l.lead ∉ nameLeads ∧ l.lead.head?.any (· != '\t') = true := by
  cases l with
  | minted stem n =>
    have hstem : stem ∈ Stem.known := of_decide_eq_true h
    rw [lead_minted hstem]
    exact (stem_lead stem hstem).2
  | _ => cases h

/-- A numbered label has the text of no function, variable or array. -/
theorem text_ne_of_isNumbered (hl : l.isNumbered = true) (hm : m.isEntry = true ∨ m.isData = true) :
    l.text ≠ m.text := by
  intro htext
  have hlead : l.lead = m.lead := congrArg (fun t : String => t.toList.take 2) htext
  have hname : m.lead ∈ nameLeads := by
    rcases hm with hm | hm
    · rcases lead_entry hm with hm | hm <;> simp [nameLeads, hm]
    · rcases lead_data hm with hm | hm <;> simp [nameLeads, hm]
  exact (lead_numbered hl).1 (hlead ▸ hname)

/-- A label of code has the text of no label of data. -/
theorem text_ne_of_isCode (hl : l.isCode = true) (hm : m.isData = true) : l.text ≠ m.text := by
  rcases isCode_cases hl with hl | hl
  · exact text_ne_of_isNumbered hl (.inr hm)
  · intro htext
    have hlead : l.lead = m.lead := congrArg (fun t : String => t.toList.take 2) htext
    rcases lead_entry hl with hl | hl <;> rcases lead_data hm
      with hm | hm <;> simp [hl, hm] at hlead

/-! ### Texts are read off again -/

/-- Numerals have no underscore. -/
theorem underscore_not_mem_digits (n : Nat) : '_' ∉ Nat.toDigits 10 n := by
  intro h
  exact absurd (Text.isDigit_of_mem_digits h) (by decide)

/-- What stands before the last occurrence of a character, and what stands behind it. -/
theorem append_cons_inj {α : Type} {x : α} {as bs cs ds : List α} (hb : x ∉ bs) (hd : x ∉ ds)
    (h : as ++ x :: bs = cs ++ x :: ds) : as = cs ∧ bs = ds := by
  rcases List.append_eq_append_iff.mp h with ⟨ys, hcs, hbs⟩ | ⟨ys, has, hds⟩
  · cases ys with
    | nil => exact ⟨by rw [hcs, List.append_nil], (List.cons.inj hbs).2⟩
    | cons y ys =>
      refine absurd ?_ hb
      rw [(List.cons.inj hbs).2]
      exact List.mem_append_right _ List.mem_cons_self
  · cases ys with
    | nil => exact ⟨by rw [has, List.append_nil], (List.cons.inj hds).2.symm⟩
    | cons y ys =>
      refine absurd ?_ hd
      rw [(List.cons.inj hds).2]
      exact List.mem_append_right _ List.mem_cons_self

theorem stem_text_inj {s t : Stem} (hs : s ∈ Stem.known) (ht : t ∈ Stem.known)
    (h : s.text = t.text) : s = t :=
  List.inj_on_of_nodup_map (show (Stem.known.map Stem.text).Nodup by decide +kernel) hs ht h

theorem numbered_text_inj (hl : l.isNumbered = true) (hm : m.isNumbered = true)
    (h : l.text = m.text) : l = m := by
  cases l with
  | minted s i =>
    cases m with
    | minted t j =>
      have hlist := congrArg String.toList h
      rw [toList_minted, toList_minted] at hlist
      obtain ⟨hstem, hdigits⟩ :=
        append_cons_inj (underscore_not_mem_digits i) (underscore_not_mem_digits j) hlist
      have hnumber : i = j := by
        rw [← Nat.ofDigitChars_ten_toDigits (n := i), hdigits, Nat.ofDigitChars_ten_toDigits]
      rw [stem_text_inj (of_decide_eq_true hl) (of_decide_eq_true hm)
        (String.toList_inj.mp hstem), hnumber]
    | _ => cases hm
  | _ => cases hl

theorem main_text_ne (f : String) : main.text ≠ (function f).text := by
  intro h
  have hlist := congrArg String.toList h
  rw [text, text, String.toList_append] at hlist
  cases hlist

theorem entry_text_inj (hl : l.isEntry = true) (hm : m.isEntry = true)
    (h : l.text = m.text) : l = m := by
  cases l with
  | main =>
    cases m with
    | main => rfl
    | function g => exact absurd h (main_text_ne g)
    | _ => cases hm
  | function f =>
    cases m with
    | main => exact absurd h.symm (main_text_ne f)
    | function g => rw [(String.append_right_inj "func_").mp h]
    | _ => cases hm
  | _ => cases hl

/-- Labels of code with the same text are the same. -/
theorem text_inj_of_isCode (hl : l.isCode = true) (hm : m.isCode = true)
    (h : l.text = m.text) : l = m := by
  rcases isCode_cases hl with hl | hl <;> rcases isCode_cases hm with hm | hm
  · exact numbered_text_inj hl hm h
  · exact absurd h (text_ne_of_isNumbered hl (.inl hm))
  · exact absurd h.symm (text_ne_of_isNumbered hm (.inl hl))
  · exact entry_text_inj hl hm h

end Label

/-! ### Lines that stand for a label -/

namespace Line

/-- The label that a line places. -/
def label? : Line → Option Label
  | .label l => some l
  | _ => none

/-- Lines of code and data that place no label. -/
def isPlain : Line → Bool
  | .label _ | .directive _ => false
  | _ => true

/-- A line looks like the one of a label of code only if it is. -/
def Tells (line : Line) : Prop :=
  ∀ l : Label, l.isCode = true → line.text = l.text ++ ":" → line = .label l

theorem tells_label {m : Label} (hm : m.isCode = true ∨ m.isData = true) : (label m).Tells := by
  intro l hl htext
  have hsame : m.text = l.text := (String.append_left_inj ":").mp htext
  rcases hm with hm | hm
  · rw [Label.text_inj_of_isCode hm hl hsame]
  · exact absurd hsame.symm (Label.text_ne_of_isCode hl hm)

theorem tells_of_last {line : Line} (h : line.text.toList.getLast? ≠ some ':') : line.Tells := by
  intro l _ htext
  rw [htext, String.toList_append] at h
  exact absurd List.getLast?_concat h

/-- An indented line is no label. -/
theorem tells_of_head {line : Line} (h : line.text.toList.head? = some '\t') : line.Tells := by
  intro l hl htext
  have hlead : l.lead.head?.any (· != '\t') = true := by
    rcases Label.isCode_cases hl with hl | hl
    · exact (Label.lead_numbered hl).2
    · rcases Label.lead_entry hl with hl | hl <;> rw [hl] <;> rfl
  rw [htext, String.toList_append] at h
  unfold Label.lead at hlead
  cases hchars : l.text.toList with
  | nil =>
    rw [hchars] at hlead
    cases hlead
  | cons c cs =>
    rw [hchars] at hlead h
    obtain rfl : c = '\t' := Option.some.inj h
    cases hlead

theorem tells_of_isPlain {line : Line} (h : line.isPlain = true) : line.Tells := by
  cases line with
  | instr i | comment t | verbatim t | word n =>
    refine tells_of_head ?_
    rw [text, String.toList_append]
    rfl
  | blank => exact tells_of_last (by decide)
  | label | directive => cases h

/-- Among lines that tell, the text of a label stands as often as the label is placed. -/
theorem count_text {l : Label} (hl : l.isCode = true) {lines : List Line}
    (h : ∀ line ∈ lines, line.Tells) :
    (lines.map text).count (l.text ++ ":") = (lines.filterMap label?).count l := by
  induction lines with
  | nil => rfl
  | cons line lines ih =>
    obtain ⟨hline, hlines⟩ := List.forall_mem_cons.mp h
    rw [List.map_cons, List.count_cons, ih hlines]
    by_cases hlabel : line = .label l
    · rw [hlabel, List.filterMap_cons_some (show label? (.label l) = some l from rfl),
        List.count_cons_self, text, beq_self_eq_true, if_pos rfl]
    · have htext : (line.text == l.text ++ ":") = false :=
        beq_eq_false_iff_ne.mpr fun heq => hlabel (hline l hl heq)
      rw [htext, if_neg Bool.false_ne_true, Nat.add_zero]
      cases line with
      | label m =>
        have hne : m ≠ l := fun heq => hlabel (congrArg label heq)
        rw [List.filterMap_cons_some (show label? (.label m) = some m from rfl),
          List.count_cons_of_ne hne]
      | _ => rw [List.filterMap_cons_none rfl]

theorem mem_label?_iff {l : Label} {lines : List Line} :
    l ∈ lines.filterMap label? ↔ .label l ∈ lines := by
  rw [List.mem_filterMap]
  constructor
  · rintro ⟨line, hline, hl⟩
    cases line with
    | label m => exact Option.some.inj hl ▸ hline
    | _ => cases hl
  · exact fun h => ⟨.label l, h, rfl⟩

end Line

end WordC.Asm
