import WordC.Compile.Program
import WordC.Proofs.LabelTexts
import WordC.Proofs.StepLaws
import WordC.Proofs.Trees

/-!
# Labels while the compiler works

The compiler jumps to labels before it places them, from inside of statements through the list of
open loops, and to functions that come later. What is kept about labels on the way is an account of
two lists: the labels that the steps at hand may use, and those that are still to be placed.
Accounts differ in what they say of the lines so far, but all of them are kept for the same reasons,
one for each thing that a step can do. So operators and expressions are followed once for all
accounts, whether they end in a value or in an error.
-/

namespace WordC

open Asm Compile Step

/-! ### Labels in lines -/

namespace Asm

def Operand.labels : Operand → List Label
  | addr l => [l]
  | reg _ | imm _ => []

/-- The labels whose addresses an instruction takes. -/
def Instr.labels : Instr → List Label
  | mov _ s | alu _ _ _ s | movZero _ _ s | movNonzero _ _ s => s.labels
  | complement _ _ | cmp _ _ _ _ | load _ _ | store _ _ | device _ _ | halt => []

def Line.labels : Line → List Label
  | .instr i => i.labels
  | _ => []

/-- Lines of the data section. -/
def Line.isDatum : Line → Bool
  | .label l => l.isData
  | .word _ => true
  | _ => false

/-- The labels that lines place. -/
def placed (lines : List Line) : List Label := lines.filterMap Line.label?

/-- The labels whose addresses lines take. -/
def addressed (lines : List Line) : List Label := lines.flatMap Line.labels

theorem placed_append (xs ys : List Line) : placed (xs ++ ys) = placed xs ++ placed ys :=
  List.filterMap_append

theorem addressed_append (xs ys : List Line) :
    addressed (xs ++ ys) = addressed xs ++ addressed ys := List.flatMap_append

theorem placed_push_label (code : Array Line) (l : Label) :
    placed (code.push (.label l)).toList = placed code.toList ++ [l] := by
  rw [Array.toList_push, placed_append]
  rfl

theorem placed_push (code : Array Line) {line : Line} (h : line.label? = none) :
    placed (code.push line).toList = placed code.toList := by
  have hnone : placed [line] = [] := List.filterMap_cons_none h
  rw [Array.toList_push, placed_append, hnone, List.append_nil]

theorem addressed_push (code : Array Line) (line : Line) :
    addressed (code.push line).toList = addressed code.toList ++ line.labels := by
  rw [Array.toList_push, addressed_append, addressed, addressed, List.flatMap_singleton]

theorem mem_placed_iff {l : Label} {lines : List Line} : l ∈ placed lines ↔ .label l ∈ lines :=
  Line.mem_label?_iff

theorem Line.label?_of_isPlain {line : Line} (h : line.isPlain = true) : line.label? = none := by
  cases line with
  | label l => cases h
  | _ => rfl

theorem Line.tells_of_isDatum {line : Line} (h : line.isDatum = true) : line.Tells := by
  cases line with
  | label l => exact tells_label (.inr h)
  | word n => exact tells_of_isPlain rfl
  | _ => cases h

theorem Line.labels_of_isDatum {line : Line} (h : line.isDatum = true) : line.labels = [] := by
  cases line with
  | label | word => rfl
  | _ => cases h

end Asm

/-! ### Numbers in lines and of labels -/

namespace Asm

/-- The number that a line moves into a register. -/
def Line.constant? : Line → Option Int
  | .instr (.mov _ (.imm v)) => some v
  | _ => none

/-- Numbers that code is made with, whatever it is made from. -/
def Slight (v : Int) : Prop := -1 ≤ v ∧ v ≤ 1

instance (v : Int) : Decidable (Slight v) := inferInstanceAs (Decidable (_ ∧ _))

/-- Lines that move no other number. -/
def Line.isSlight (l : Line) : Bool := l.constant?.all fun v => decide (Slight v)

/-- Instructions without addresses and other numbers. -/
def Instr.isSimple (i : Instr) : Bool := i.labels.isEmpty && (Line.instr i).isSlight

theorem Instr.labels_of_isSimple {i : Instr} (h : i.isSimple = true) : i.labels = [] := by
  simp only [isSimple, Bool.and_eq_true] at h
  exact List.isEmpty_iff.mp h.1

theorem Instr.isSlight_of_isSimple {i : Instr} (h : i.isSimple = true) :
    (Line.instr i).isSlight = true := by
  simp only [isSimple, Bool.and_eq_true] at h
  exact h.2

theorem Line.labels_of_jump {i : Instr} {l : Label} (h : (Line.instr i).jumpsTo? = some l) :
    i.labels = [l] := by
  rcases jump_cases h with heq | ⟨c, heq | heq⟩ <;> cases heq <;> rfl

namespace Label

/-- The number that a label got from the compiler's count. -/
def number? : Label → Option Nat
  | minted _ n => some n
  | localArray _ _ n => some n
  | _ => none

/-- If the label has a number, it was given out between the counts `low` and `high`. -/
def NumberedIn (low high : Nat) (l : Label) : Prop := ∀ n, l.number? = some n → low ≤ n ∧ n < high

variable {low low' high high' n : Nat} {l : Label}

theorem NumberedIn.mono (h : l.NumberedIn low high) (hlow : low' ≤ low) (hhigh : high ≤ high') :
    l.NumberedIn low' high' := by
  intro n hn
  obtain ⟨hn', hlt⟩ := h n hn
  exact ⟨Nat.le_trans hlow hn', Nat.lt_of_lt_of_le hlt hhigh⟩

theorem numberedIn_of_number? (hn : l.number? = some n) (hlow : low ≤ n) (hhigh : n < high) :
    l.NumberedIn low high := by
  intro n' hn'
  rw [hn] at hn'
  obtain rfl := Option.some.inj hn'
  exact ⟨hlow, hhigh⟩

theorem numberedIn_of_none (hn : l.number? = none) : l.NumberedIn low high := by
  intro n hn'
  rw [hn] at hn'
  cases hn'

end Label

end Asm

/-! ### Noted labels -/

/-- The labels that the compiler has noted for later: of open loops, and in its tables. -/
def Compiler.Notes (c : Compiler) (l : Label) : Prop :=
  (∃ loop ∈ c.loops, l = loop.next ∨ l = loop.exit) ∨ (∃ f, c.functions.get? f = some l) ∨
    (∃ x, c.globals.get? x = some l) ∨ (∃ a, c.arrays.get? a = some (.label l)) ∨
    ∃ x, c.varPlaces.get? x = some (.label l)

namespace Compiler.Notes

variable {c : Compiler} {l m : Label} {x : String}

theorem next {loop : LoopLabels} (h : loop ∈ c.loops) : c.Notes loop.next :=
  .inl ⟨loop, h, .inl rfl⟩

theorem exit {loop : LoopLabels} (h : loop ∈ c.loops) : c.Notes loop.exit :=
  .inl ⟨loop, h, .inr rfl⟩

theorem function (h : c.functions.get? x = some l) : c.Notes l := .inr (.inl ⟨x, h⟩)

theorem global (h : c.globals.get? x = some l) : c.Notes l := .inr (.inr (.inl ⟨x, h⟩))

theorem array (h : c.arrays.get? x = some (.label l)) : c.Notes l :=
  .inr (.inr (.inr (.inl ⟨x, h⟩)))

theorem varPlace (h : c.varPlaces.get? x = some (.label l)) : c.Notes l :=
  .inr (.inr (.inr (.inr ⟨x, h⟩)))

theorem of_functions {t : Table Label} (h : { c with functions := t }.Notes l) :
    c.Notes l ∨ ∃ f, t.get? f = some l := by
  rcases h with h | h | h
  · exact .inl (.inl h)
  · exact .inr h
  · exact .inl (.inr (.inr h))

theorem of_globals (h : { c with globals := c.globals.set x m }.Notes l) : c.Notes l ∨ l = m := by
  rcases h with h | h | ⟨y, h⟩ | h
  · exact .inl (.inl h)
  · exact .inl (.inr (.inl h))
  · rw [Table.get?_set] at h
    split at h
    · exact .inr (Option.some.inj h).symm
    · exact .inl (.global h)
  · exact .inl (.inr (.inr (.inr h)))

theorem of_arrays {place : ArrayPlace} (h : { c with arrays := c.arrays.set x place }.Notes l) :
    c.Notes l ∨ place = .label l := by
  rcases h with h | h | h | ⟨y, h⟩ | h
  · exact .inl (.inl h)
  · exact .inl (.inr (.inl h))
  · exact .inl (.inr (.inr (.inl h)))
  · rw [Table.get?_set] at h
    split at h
    · exact .inr (Option.some.inj h)
    · exact .inl (.array h)
  · exact .inl (.inr (.inr (.inr (.inr h))))

theorem of_varPlaces {place : VarPlace}
    (h : { c with varPlaces := c.varPlaces.set x place }.Notes l) :
    c.Notes l ∨ place = .label l := by
  rcases h with h | h | h | h | ⟨y, h⟩
  · exact .inl (.inl h)
  · exact .inl (.inr (.inl h))
  · exact .inl (.inr (.inr (.inl h)))
  · exact .inl (.inr (.inr (.inr (.inl h))))
  · rw [Table.get?_set] at h
    split at h
    · exact .inr (Option.some.inj h)
    · exact .inl (.varPlace h)

end Compiler.Notes

/-! ### Accounts -/

namespace RegPool

theorem tempAvoiding_snd_lt (avoid : List Reg) (tries : Nat) :
    ∀ p, (tempAvoiding avoid tries p).2.nextTemp < 10 := by
  induction tries with
  | zero => exact fun p => p.temp_snd_lt
  | succ n ih =>
    intro p
    show (if p.temp.1 ∈ avoid then tempAvoiding avoid n p.temp.2 else p.temp).2.nextTemp < 10
    split
    · exact ih p.temp.2
    · exact p.temp_snd_lt

theorem allocate?_nextTemp {p : RegPool} {x : String} {found : Reg × RegPool}
    (h : p.allocate? x = some found) : found.2.nextTemp = p.nextTemp := by
  unfold allocate? at h
  rcases hx : p.allocated.get? x with _ | r
  · simp only [hx] at h
    split at h
    · cases h
    · rw [← Option.some.inj h]
  · simp only [hx] at h
    rw [← Option.some.inj h]

end RegPool

/-- A change beside the code: `lines` are added to the data section, and what is noted then was
noted before, is known or is placed there. -/
structure Compiler.Beside (known : List Label) (lines : List Line) (c c' : Compiler) : Prop where
  code : c'.code = c.code
  data : c'.data.toList = c.data.toList ++ lines
  datum : ∀ line ∈ lines, line.isDatum = true
  numbers : ∀ l ∈ placed lines, l.NumberedIn c.labelCount c'.labelCount
  labels : c.labelCount ≤ c'.labelCount
  current : c'.current = c.current
  functions : c'.functions = c.functions
  /-- Temporaries are handed out in turn. -/
  turning : c.pool.nextTemp < 10 → c'.pool.nextTemp < 10
  notes : ∀ l, c'.Notes l → c.Notes l ∨ l ∈ known ∨ l ∈ placed lines

/-- Nothing is written. -/
theorem Compiler.Beside.quiet {known : List Label} {c c' : Compiler} (hcode : c'.code = c.code)
    (hdata : c'.data = c.data) (hlabels : c.labelCount ≤ c'.labelCount)
    (hcurrent : c'.current = c.current) (hfunctions : c'.functions = c.functions)
    (hturning : c.pool.nextTemp < 10 → c'.pool.nextTemp < 10)
    (hnotes : ∀ l, c'.Notes l → c.Notes l ∨ l ∈ known) : c.Beside known [] c' :=
  ⟨hcode, by rw [hdata, List.append_nil], List.forall_mem_nil _, List.forall_mem_nil _, hlabels,
    hcurrent, hfunctions, hturning, fun l hl => (hnotes l hl).imp_right .inl⟩

/-- A statement about states, with the labels that may be used and those that are still to be
placed. -/
abbrev Account := List Label → List Label → Compiler → Prop

/-- Accounts that the code of operators and devices keeps. It writes registers with `W` only, and
all temporaries are such; devices are told something by instructions with `S`. -/
class OperatorRules (W : outParam (Reg → Prop)) (S : outParam (DeviceOp → Prop))
    (I : Account) : Prop where
  draw {known due c} : I known due c →
    W c.pool.temp.1 ∧ I known due { c with pool := c.pool.temp.2 }
  drawApart {known due c} (avoid : List Reg) : I known due c →
    W (c.pool.tempAvoiding avoid 9).1 ∧
    I known due { c with pool := (c.pool.tempAvoiding avoid 9).2 }
  put {known due c d} {i : Instr} : I known due c → i.target? = some d → W d → i.isSimple = true →
    I known due { c with code := c.code.push (.instr i) }
  send {known due c} {op : DeviceOp} (r : Reg) : I known due c → op.delivers = false → S op →
    I known due { c with code := c.code.push (.instr (.device op r)) }
  jump {known due c l} {i : Instr} : I known due c → (Line.instr i).jumpsTo? = some l →
    l ∈ known → I known due { c with code := c.code.push (.instr i) }
  mint {known due c} {stem : Stem} : I known due c → stem ∈ Stem.known →
    I (.minted stem c.labelCount :: known) (.minted stem c.labelCount :: due) { c with
    labelCount := c.labelCount + 1 }
  place {known front back c l} : I known (front ++ l :: back) c →
    I known (front ++ back) { c with code := c.code.push (.label l) }
  forget {known known' due c} : I known due c → known' ⊆ known → I known' due c

/-- Accounts that all steps of expressions and statements keep. -/
class StepRules (I : Account) : Prop where
  line {known due c} {line : Line} : I known due c → line.isPlain = true →
    (∀ l ∈ line.labels, l ∈ known) → I known due { c with code := c.code.push line }
  mint {known due c} {stem : Stem} : I known due c → stem ∈ Stem.known →
    I (.minted stem c.labelCount :: known) (.minted stem c.labelCount :: due) { c with
    labelCount := c.labelCount + 1 }
  place {known front back c l} : I known (front ++ l :: back) c →
    I known (front ++ back) { c with code := c.code.push (.label l) }
  know {known due c l} : I known due c → c.Notes l → I (l :: known) due c
  forget {known known' due c} : I known due c → known' ⊆ known → I known' due c
  change {known due lines c c'} : I known due c → c.Beside known lines c' →
    I (placed lines ++ known) due c'

theorem StepRules.quiet {I : Account} [StepRules I] {known due : List Label} {c c' : Compiler}
    (hc : I known due c) (h : c.Beside known [] c') : I known due c' := StepRules.change hc h

instance StepRules.operatorRules {I : Account} [StepRules I] :
    OperatorRules (fun _ => True) (fun _ => True) I where
  draw {known due c} hc := ⟨trivial, StepRules.quiet hc
    (.quiet rfl rfl (Nat.le_refl _) rfl rfl (fun _ => c.pool.temp_snd_lt) fun _ hl => .inl hl)⟩
  drawApart {known due c} avoid hc := ⟨trivial, StepRules.quiet hc
    (.quiet rfl rfl (Nat.le_refl _) rfl rfl (fun _ => RegPool.tempAvoiding_snd_lt avoid 9 _)
    fun _ hl => .inl hl)⟩
  put hc _ _ hi := StepRules.line hc rfl (by simp [Line.labels, Instr.labels_of_isSimple hi])
  send r hc _ _ := StepRules.line hc rfl (by simp [Line.labels, Instr.labels])
  jump hc hi hl := StepRules.line hc rfl (by simpa [Line.labels, Line.labels_of_jump hi] using hl)
  mint := StepRules.mint
  place := StepRules.place
  forget := StepRules.forget

/-! ### Steps -/

namespace Compile

variable {α β : Type} {W : Reg → Prop} {S : DeviceOp → Prop} {I : Account}
  {known due mid left : List Label}

/-- How a step from `c` ends. A value leaves the labels `left` to be placed, and an error leaves
something; the open loops are as before in any case. -/
structure BooksAt (I : Account) (known left : List Label) (x : Compile α)
    (c : Compiler) : Prop where
  loops : (x c).2.loops = c.loops
  value : ∀ a, (x c).1 = .ok a → I known left (x c).2
  either : ∃ known due, I known due (x c).2

/-- A step from `due` to `left`. -/
def Books (I : Account) (known due left : List Label) (x : Compile α) : Prop :=
  ∀ c, I known due c → BooksAt I known left x c

variable {x : Compile α} {c : Compiler} {f : α → Compile β} {y : Compile β} {l : Label} {i : Instr}

theorem BooksAt.done {a : α} {c' : Compiler} (hx : x c = (.ok a, c')) (hloops : c'.loops = c.loops)
    (h : I known left c') : BooksAt I known left x c := by
  refine ⟨?_, fun _ _ => ?_, known, left, ?_⟩ <;> rw [hx]
  · exact hloops
  · exact h
  · exact h

/-- A step that gives a value and further ones. -/
theorem BooksAt.step {a : α} {c' : Compiler} (hx : x c = (.ok a, c')) (hloops : c'.loops = c.loops)
    (hf : BooksAt I known left (f a) c') : BooksAt I known left (x >>= f) c := by
  obtain ⟨hloops', hvalue, heither⟩ := hf
  constructor <;> rw [bind_ok hx]
  · exact hloops'.trans hloops
  · exact hvalue
  · exact heither

theorem Books.bind (hx : Books I known due mid x) (hf : ∀ a, Books I known mid left (f a)) :
    Books I known due left (x >>= f) := by
  intro c hc
  obtain ⟨hloops, hvalue, heither⟩ := hx c hc
  rcases hxc : x c with ⟨e | a, c'⟩
  · rw [hxc] at hloops heither
    refine ⟨?_, fun b hb => ?_, ?_⟩
    · rw [bind_error hxc]
      exact hloops
    · rw [bind_error hxc] at hb
      cases hb
    · rw [bind_error hxc]
      exact heither
  · rw [hxc] at hloops hvalue
    exact .step hxc hloops (hf a c' (hvalue a rfl))

theorem Books.andThen (hx : Books I known due mid x) (hy : Books I known mid left y) :
    Books I known due left (x >>= fun _ => y) := hx.bind fun _ => hy

theorem books_pure (a : α) : Books I known due due (pure a) := fun _ hc => .done rfl rfl hc

/-- A step that only fails. -/
theorem books_error (hx : ∀ c, ∃ e, x c = (.error e, c)) : Books I known due left x := by
  intro c hc
  obtain ⟨e, he⟩ := hx c
  refine ⟨by rw [he], fun a ha => ?_, known, due, by rw [he]; exact hc⟩
  rw [he] at ha
  cases ha

theorem books_throw (e : CompileError) : Books I known due left (throw e : Compile α) :=
  books_error fun _ => ⟨e, rfl⟩

/-- Nothing comes behind a step that only fails. -/
theorem books_failing (hx : ∀ c, ∃ e, x c = (.error e, c)) :
    Books I known due left (x >>= f) := books_error fun c => (hx c).imp fun _ he => bind_error he

theorem books_ite {p : Prop} [Decidable p] {y : Compile α} (hx : Books I known due left x)
    (hy : Books I known due left y) : Books I known due left (if p then x else y) := by
  split
  · exact hx
  · exact hy

/-- A step that looks at the state goes on from the state it has seen. -/
theorem books_look {f : Compiler → Compile β}
    (hf : ∀ c, I known due c → BooksAt I known left (f c) c) : Books I known due left (get >>= f) :=
  fun c hc => .step rfl rfl (hf c hc)

theorem books_get {f : Compiler → Compile β} (hf : ∀ c, Books I known due left (f c)) :
    Books I known due left (get >>= f) :=
  books_look fun c hc => hf c c hc

theorem books_currentFunction : Books I known due due currentFunction :=
  books_get fun _ => books_pure _

/-! ### Operators -/

section Operators

variable [rules : OperatorRules W S I]

include rules

theorem BooksAt.forget {known' : List Label} {x : Compile α} {c : Compiler}
    (h : BooksAt I known left x c) (hsub : known' ⊆ known) : BooksAt I known' left x c :=
  ⟨h.loops, fun a ha => OperatorRules.forget (h.value a ha) hsub, h.either⟩

theorem books_drawing {f : Reg → Compile β} (hf : ∀ r, W r → Books I known due left (f r)) :
    Books I known due left (temp >>= f) := by
  intro c hc
  obtain ⟨hr, hc'⟩ := OperatorRules.draw hc
  exact .step rfl rfl (hf _ hr _ hc')

theorem books_drawingApart (avoid : List Reg) {f : Reg → Compile β}
    (hf : ∀ r, W r → Books I known due left (f r)) :
    Books I known due left (tempAvoiding avoid >>= f) := by
  intro c hc
  obtain ⟨hr, hc'⟩ := OperatorRules.drawApart avoid hc
  exact .step rfl rfl (hf _ hr _ hc')

variable {i : Instr} {y : Compile β}

theorem books_put {d : Reg} (hd : W d) (hi : i.target? = some d) (hs : i.isSimple = true) :
    Books I known due due (emit i) := fun _ hc => .done rfl rfl (OperatorRules.put hc hi hd hs)

theorem books_putting {d : Reg} (hd : W d) (hi : i.target? = some d) (hs : i.isSimple = true)
    (hy : Books I known due left y) : Books I known due left (emit i >>= fun _ => y) :=
  (books_put hd hi hs).andThen hy

theorem books_sending {op : DeviceOp} (r : Reg) (hop : op.delivers = false) (hS : S op)
    (hy : Books I known due left y) : Books I known due left (emit (.device op r) >>= fun _ => y) :=
  Books.andThen (fun _ hc => .done rfl rfl (OperatorRules.send r hc hop hS)) hy

theorem books_jumping {l : Label} (hi : (Line.instr i).jumpsTo? = some l) (hl : l ∈ known)
    (hy : Books I known due left y) : Books I known due left (emit i >>= fun _ => y) :=
  Books.andThen (fun _ hc => .done rfl rfl (OperatorRules.jump hc hi hl)) hy

/-- A new label is known to what comes behind it, and has to be placed there. -/
theorem books_minting {stem : Stem} {f : Label → Compile β} (h : stem ∈ Stem.known)
    (hf : ∀ l, Books I (l :: known) (l :: due) left (f l)) :
    Books I known due left (mint stem >>= f) := fun _ hc =>
  .step rfl rfl ((hf _ _ (OperatorRules.mint hc h)).forget fun _ => List.mem_cons_of_mem _)

theorem books_place (l : Label) : Books I known (l :: left) left (place l) := fun _ hc =>
  .done rfl rfl (OperatorRules.place (show I known ([] ++ l :: left) _ from hc))

theorem books_placing (front back : List Label) {l : Label}
    (hy : Books I known (front ++ back) left y) :
    Books I known (front ++ l :: back) left (place l >>= fun _ => y) := fun _ hc =>
  .step rfl rfl (hy _ (OperatorRules.place hc))

variable {d : Reg} (hd : W d) (l r : Reg)

include hd

theorem books_mul : Books I known due due (mul d l r) := by
  refine books_drawing fun a ha => books_drawing fun n hn =>
    books_putting ha rfl rfl (books_putting hn rfl rfl ?_)
  refine books_putting hd rfl rfl
    (books_minting (by decide) fun again => books_minting (by decide) fun done => ?_)
  refine books_placing [done] due
    (books_drawing fun z hz => books_putting hz rfl rfl
    (books_jumping (l := done) rfl (by simp) ?_))
  refine books_putting hd rfl rfl
    (books_drawing fun one hone => books_putting hone rfl rfl (books_putting hn rfl rfl ?_))
  exact books_jumping (l := again) rfl (by simp) (books_place done)

theorem books_div : Books I known due due (div d l r) := by
  refine books_drawing fun a ha => books_drawing fun b hb =>
    books_putting ha rfl rfl (books_putting hb rfl rfl ?_)
  refine books_putting hd rfl rfl
    (books_minting (by decide) fun again => books_minting (by decide) fun done => ?_)
  refine books_drawing fun z hz =>
    books_putting hz rfl rfl (books_minting (by decide) fun failed => ?_)
  refine books_jumping (l := failed) rfl (by simp)
    (books_placing [failed, done] due (books_drawing fun flag hflag => ?_))
  refine books_putting hflag rfl rfl (books_drawing fun z' hz' => books_putting hz' rfl rfl ?_)
  refine books_jumping (l := done) rfl (by simp)
    (books_putting ha rfl rfl (books_drawing fun one hone => ?_))
  refine books_putting hone rfl rfl
    (books_putting hd rfl rfl (books_jumping (l := again) rfl (by simp) ?_))
  refine books_placing [failed] due
    (books_minting (by decide) fun skip => books_jumping (l := skip) rfl (by simp) ?_)
  exact books_placing [skip] due (books_putting hd rfl rfl (books_place skip))

theorem books_mod : Books I known due due (mod d l r) := by
  refine books_drawing fun a ha => books_drawing fun b hb =>
    books_putting ha rfl rfl (books_putting hb rfl rfl ?_)
  refine books_minting (by decide) fun again => books_minting (by decide) fun done => ?_
  refine books_drawing fun z hz =>
    books_putting hz rfl rfl (books_minting (by decide) fun failed => ?_)
  refine books_jumping (l := failed) rfl (by simp)
    (books_placing [failed, done] due (books_drawing fun flag hflag => ?_))
  refine books_putting hflag rfl rfl (books_drawing fun z' hz' => books_putting hz' rfl rfl ?_)
  refine books_jumping (l := done) rfl (by simp)
    (books_putting ha rfl rfl (books_jumping (l := again) rfl (by simp) ?_))
  refine books_placing [failed] due
    (books_putting hd rfl rfl (books_minting (by decide) fun skip => ?_))
  refine books_jumping (l := skip) rfl (by simp)
    (books_placing [skip] due (books_putting hd rfl rfl ?_))
  exact books_place skip

theorem books_flagTest (op : CmpOp) (onZero : Bool) :
    Books I known due due (flagTest op onZero d l r) := by
  have hrest (flag : Reg) (hflag : W flag) : Books I known due due (do
      emit (.cmp op flag l r)
      let ones ← temp
      emit (.mov ones (.imm (-1)))
      emit (if onZero then .movZero d flag (.reg ones) else .movNonzero d flag (.reg ones))
      emit (.alu .bitXor d d (.reg ones))) := by
    refine books_putting hflag rfl rfl
      (books_drawing fun ones hones => books_putting hones rfl rfl ?_)
    cases onZero <;> exact books_putting hd rfl rfl (books_put hd rfl rfl)
  unfold flagTest flagFor
  split
  · exact books_drawing hrest
  · exact hrest d hd

theorem books_less : Books I known due due (less d l r) := by
  refine books_ite ?_ ?_
  · refine books_drawing fun flag hflag =>
      books_putting hflag rfl rfl (books_drawingApart _ fun one hone => ?_)
    exact books_putting hd rfl rfl (books_putting hone rfl rfl (books_put hd rfl rfl))
  · refine books_putting hd rfl rfl
      (books_drawingApart _ fun spare _ => books_drawingApart _ fun one hone => ?_)
    exact books_putting hone rfl rfl (books_put hd rfl rfl)

theorem books_lessEqual : Books I known due due (lessEqual d l r) := by
  refine books_drawing fun flag hflag =>
    books_putting hflag rfl rfl (books_drawing fun one hone => ?_)
  refine books_drawing fun z hz => books_putting hone rfl rfl (books_putting hz rfl rfl ?_)
  exact books_putting hd rfl rfl (books_put hd rfl rfl)

theorem books_greaterEqual : Books I known due due (greaterEqual d l r) := by
  refine books_drawingApart _ fun flag hflag =>
    books_putting hflag rfl rfl (books_drawingApart _ fun one hone => ?_)
  exact books_putting hd rfl rfl (books_putting hone rfl rfl (books_put hd rfl rfl))

theorem books_logicalAnd : Books I known due due (logicalAnd d l r) := by
  refine books_drawingApart _ fun z hz => books_putting hz rfl rfl (books_putting hd rfl rfl ?_)
  refine books_minting (by decide) fun done => books_drawingApart _ fun flag hflag =>
    books_putting hflag rfl rfl ?_
  refine books_jumping (l := done) rfl (by simp)
    (books_drawingApart _ fun flag' hflag' => books_putting hflag' rfl rfl ?_)
  refine books_jumping (l := done) rfl (by simp)
    (books_drawingApart _ fun one hone => books_putting hone rfl rfl ?_)
  exact books_putting hd rfl rfl (books_jumping (l := done) rfl (by simp) (books_place done))

theorem books_logicalOr : Books I known due due (logicalOr d l r) := by
  refine books_drawing fun z hz =>
    books_putting hz rfl rfl (books_putting hd rfl rfl (books_drawing fun one hone => ?_))
  exact books_putting hone rfl rfl
    (books_putting hd rfl rfl (books_putting hone rfl rfl (books_put hd rfl rfl)))

theorem books_binary (op : BinOp) : Books I known due due (binary op d l r) := by
  cases op with
  | add | sub | bitAnd | bitOr | bitXor | shiftLeft | shiftRight => exact books_put hd rfl rfl
  | mul => exact books_mul hd l r
  | div => exact books_div hd l r
  | mod => exact books_mod hd l r
  | equal | notEqual | greater => exact books_flagTest hd l r _ _
  | less => exact books_less hd l r
  | lessEqual => exact books_lessEqual hd l r
  | greaterEqual => exact books_greaterEqual hd l r
  | logicalAnd => exact books_logicalAnd hd l r
  | logicalOr => exact books_logicalOr hd l r

theorem books_unary (op : UnaryOp) (a : Reg) : Books I known due due (unary op d a) := by
  cases op with
  | logicalNot =>
    refine books_drawing fun z hz =>
      books_putting hz rfl rfl (books_putting hd rfl rfl (books_drawing fun ones hones => ?_))
    exact books_putting hones rfl rfl (books_putting hd rfl rfl (books_put hd rfl rfl))
  | complement => exact books_put hd rfl rfl
  | negate => exact books_drawing fun z hz => books_putting hz rfl rfl (books_put hd rfl rfl)

theorem books_device (hS : ∀ op : DeviceOp, op.delivers = false → S op) (f : String)
    (args : List Reg) : Books I known due due (device d f args) := by
  unfold device
  split
  · refine books_drawing fun t ht =>
      books_putting ht rfl rfl (books_drawing fun u hu => books_putting hu rfl rfl ?_)
    exact books_putting ht rfl rfl
      (books_putting ht rfl rfl (books_sending _ rfl (hS _ rfl) (books_put hd rfl rfl)))
  · exact books_put hd rfl rfl
  · refine books_drawing fun t ht => books_putting ht rfl rfl (books_putting ht rfl rfl ?_)
    exact books_sending _ rfl (hS _ rfl) (books_put hd rfl rfl)
  · exact books_sending _ rfl (hS _ rfl) (books_put hd rfl rfl)
  · exact books_put hd rfl rfl
  · exact books_sending _ rfl (hS _ rfl) (books_put hd rfl rfl)
  · exact books_error fun _ => ⟨_, rfl⟩

end Operators

/-! ### Lines, registers and loops -/

variable [StepRules I]

/-- A step that uses a label that is noted in the state it starts from. -/
theorem books_noted (hc : I known due c) (hl : c.Notes l)
    (hx : Books I (l :: known) due left x) : BooksAt I known left x c :=
  (hx c (StepRules.know hc hl)).forget fun _ => List.mem_cons_of_mem _

/-- A change beside the code that places no label. -/
theorem books_beside (lines : List Line) (hplaced : placed lines = [])
    (hx : ∀ c, (x c).2.loops = c.loops ∧ c.Beside known lines (x c).2) :
    Books I known due due x := by
  intro c hc
  obtain ⟨hloops, hbeside⟩ := hx c
  have hend : I known due (x c).2 := by
    have hchange := StepRules.change hc hbeside
    rwa [hplaced, List.nil_append] at hchange
  exact ⟨hloops, fun _ _ => hend, known, due, hend⟩

/-- A change of registers and of what no label depends on. -/
theorem books_modify {f : Compiler → Compiler}
    (hf : ∀ c, (f c).loops = c.loops ∧ c.Beside known [] (f c)) :
    Books I known due due (modify f : Compile Unit) := books_beside [] rfl hf

theorem books_line {line : Line} (hplain : line.isPlain = true)
    (hlabels : ∀ l ∈ line.labels, l ∈ known) : Books I known due due (Compile.line line) :=
  fun _ hc => .done rfl rfl (StepRules.line hc hplain hlabels)

theorem books_emit (h : i.labels = []) : Books I known due due (emit i) :=
  books_line rfl (by simp [Line.labels, h])

theorem books_writing (h : i.labels = []) (hy : Books I known due left y) :
    Books I known due left (emit i >>= fun _ => y) := (books_emit h).andThen hy

/-- An instruction that takes the address of a known label. -/
theorem books_taking (hi : i.labels = [l]) (hl : l ∈ known) : Books I known due due (emit i) :=
  books_line rfl (by simpa [Line.labels, hi] using hl)

theorem books_addressing (hi : i.labels = [l]) (hl : l ∈ known) (hy : Books I known due left y) :
    Books I known due left (emit i >>= fun _ => y) := (books_taking hi hl).andThen hy

theorem books_move (d s : Reg) : Books I known due due (move d s) :=
  books_ite (books_emit rfl) (books_pure ())

theorem books_labelNumber : Books I known due due labelNumber :=
  books_beside [] rfl fun _ => ⟨rfl, .quiet rfl rfl (Nat.le_succ _) rfl rfl id fun _ hl => .inl hl⟩

/-- A label need not be used. -/
theorem books_mint (stem : Stem) : Books I known due due (mint stem) := by
  unfold mint
  exact books_labelNumber.bind fun _ => books_pure _

theorem books_allocate (x : String) : Books I known due due (allocate x) := by
  refine books_beside [] rfl fun c => ?_
  unfold allocate
  rw [bind_ok (get_apply c)]
  cases hx : c.pool.allocate? x with
  | none => exact ⟨rfl, .quiet rfl rfl (Nat.le_refl _) rfl rfl id fun _ hl => .inl hl⟩
  | some found =>
    have hturn : found.2.nextTemp = c.pool.nextTemp := RegPool.allocate?_nextTemp hx
    exact ⟨rfl, .quiet rfl rfl (Nat.le_refl _) rfl rfl (fun hc => hturn ▸ hc) fun _ hl => .inl hl⟩

omit [StepRules I] in
theorem books_registerOf? (x : String) : Books I known due due (registerOf? x) := by
  refine books_get fun c => ?_
  split
  · exact books_pure _
  · split
    · split
      · exact books_pure _
      · exact books_throw _
    · exact books_pure _

/-- Inside a loop its labels are noted, and once the loop is left it is not open any more. -/
theorem books_inLoop {labels : LoopLabels} (hnext : labels.next ∈ known)
    (hexit : labels.exit ∈ known) (hx : Books I known due left x) :
    Books I known due left (inLoop labels x) := by
  intro c hc
  have hopen : c.Beside known [] { c with loops := labels :: c.loops } := by
    refine .quiet rfl rfl (Nat.le_refl _) rfl rfl id fun l hl => ?_
    rcases hl with ⟨loop, hmem, hl⟩ | hl
    · rcases List.mem_cons.mp hmem with rfl | hmem
      · rcases hl with rfl | rfl
        · exact .inr hnext
        · exact .inr hexit
      · exact .inl (.inl ⟨loop, hmem, hl⟩)
    · exact .inl (.inr hl)
  have hclose {known due : List Label} {k : Compiler} (hk : I known due k) :
      I known due { k with loops := k.loops.tail } := by
    refine StepRules.quiet hk (.quiet rfl rfl (Nat.le_refl _) rfl rfl id fun l hl => .inl ?_)
    rcases hl with ⟨loop, hmem, hl⟩ | hl
    · exact .inl ⟨loop, List.mem_of_mem_tail hmem, hl⟩
    · exact .inr hl
  obtain ⟨hloops, hvalue, known', due', heither⟩ := hx _ (StepRules.quiet hc hopen)
  refine ⟨?_, fun a ha => hclose (hvalue a ha), known', due', hclose heither⟩
  show (x { c with loops := labels :: c.loops }).2.loops.tail = c.loops
  rw [hloops]
  rfl

/-! ### Expressions -/

theorem books_loadLabel (hl : l ∈ known) : Books I known due due (loadLabel l) :=
  books_drawing fun d _ => books_drawing fun _ _ =>
    books_addressing rfl hl (books_writing rfl (books_pure d))

theorem books_name (x : String) : Books I known due due (name x) := by
  refine books_look fun c hc => ?_
  split
  · next l hl => exact books_noted hc (.global hl) (books_loadLabel List.mem_cons_self)
  · refine (books_registerOf? x).bind (fun r => ?_) c hc
    split
    · exact books_pure _
    · exact books_error fun _ => ⟨_, rfl⟩

theorem books_push (r : Reg) : Books I known due due (push r) := books_writing rfl (books_emit rfl)

theorem books_callPushed (t : Reg) {target : Label} (count : Nat) (htarget : target ∈ known) :
    Books I known due due (callPushed t target count) := by
  have hvalue {known : List Label} : Books I known due due (do
      let d ← temp
      move d result
      return d) := books_drawing fun d _ => (books_move d result).andThen (books_pure d)
  refine books_minting (by decide) fun back =>
    books_addressing rfl (l := back) (by simp) ((books_push t).andThen ?_)
  refine books_addressing rfl (List.mem_cons_of_mem _ htarget)
    (books_placing [] due (books_ite ?_ hvalue))
  exact books_drawing fun n _ => books_writing rfl (books_writing rfl hvalue)

theorem books_elementAddress (d : Reg) (i : Reg) (hl : l ∈ known) :
    Books I known due due (elementAddress d l i) :=
  books_addressing rfl hl (books_emit rfl)

theorem books_loadElement (a : String) (i : Reg) : Books I known due due (loadElement a i) := by
  refine books_look fun c hc => ?_
  split
  · next p hp =>
    cases p with
    | label l =>
      refine books_noted hc (.array hp) (books_drawing fun d _ => books_drawing fun t _ => ?_)
      exact (books_elementAddress t i List.mem_cons_self).andThen (books_writing rfl (books_pure d))
    | number n =>
      exact books_drawing (fun d _ => books_drawing fun t _ => books_failing fun _ => ⟨_, rfl⟩) c hc
  · exact books_throw _ c hc

theorem books_addressOfElement (d : Reg) (a : String) (i : Reg) :
    Books I known due due (addressOfElement d a i) := by
  refine books_look fun c hc => ?_
  split
  · next p hp =>
    cases p with
    | label l =>
      refine books_noted hc (.array hp) (books_drawing fun t _ => ?_)
      exact (books_elementAddress t i List.mem_cons_self).andThen (books_emit rfl)
    | number n => exact books_drawing (fun t _ => books_failing fun _ => ⟨_, rfl⟩) c hc
  · exact books_throw _ c hc

theorem books_addressOfName (d : Reg) (x : String) : Books I known due due (addressOfName d x) := by
  refine books_look fun c hc => ?_
  split
  · next l hl => exact books_noted hc (.varPlace hl) (books_taking rfl List.mem_cons_self)
  · refine books_writing rfl (books_ite ?_ (books_pure ())) c hc
    exact books_drawing fun t _ => books_writing rfl (books_emit rfl)
  · split
    · next p hp =>
      cases p with
      | label l => exact books_noted hc (.array hp) (books_taking rfl List.mem_cons_self)
      | number n => exact books_failing (fun _ => ⟨_, rfl⟩) c hc
    · exact books_throw _ c hc

end Compile

namespace Expr

open Compile

variable {I : Account} [StepRules I] {known due : List Label}

theorem books_addressOf {e : Expr}
    (hindex : ∀ a i, e = .index a i → Books I known due due i.compile)
    (hderef : ∀ d, e = .deref d → Books I known due due d.compile) :
    Books I known due due (addressOf e).compile := by
  cases e with
  | name x =>
    rw [compile]
    exact books_drawing fun d _ => (books_addressOfName d x).andThen (books_pure d)
  | index a i =>
    rw [compile]
    exact books_drawing fun d _ => (hindex a i rfl).bind fun r =>
      (books_addressOfElement d a r).andThen (books_pure d)
  | deref d =>
    rw [compile]
    exact books_drawing fun _ _ => hderef d rfl
  | _ =>
    rw [compile]
    · exact books_drawing fun _ _ => books_error fun _ => ⟨_, rfl⟩
    all_goals simp

omit [StepRules I] in
theorem books_compileAll {es : List Expr} (h : ∀ e ∈ es, Books I known due due e.compile) :
    Books I known due due (compileAll es) := by
  induction es with
  | nil =>
    rw [compileAll]
    exact books_pure _
  | cons e es ih =>
    obtain ⟨he, hes⟩ := List.forall_mem_cons.mp h
    rw [compileAll]
    exact he.bind fun _ => (ih hes).bind fun _ => books_pure _

theorem books_pushAll (t : Reg) {es : List Expr} (h : ∀ e ∈ es, Books I known due due e.compile) :
    Books I known due due (pushAll t es) := by
  induction es with
  | nil =>
    rw [pushAll]
    exact books_pure _
  | cons e es ih =>
    obtain ⟨he, hes⟩ := List.forall_mem_cons.mp h
    rw [pushAll]
    exact (ih hes).andThen (he.bind fun r => (books_move t r).andThen (books_push t))

theorem books_compile (e : Expr) : Books I known due due e.compile := by
  induction e using Expr.address_induction generalizing known due with
  | literal n =>
    rw [compile]
    exact books_drawing fun d _ => books_writing rfl (books_pure d)
  | name x =>
    rw [compile]
    exact books_name x
  | index a i ih =>
    rw [compile]
    exact ih.bind fun r => books_loadElement a r
  | addressOf e hindex hderef =>
    exact books_addressOf (fun a i he => hindex a i he) fun d he => hderef d he
  | deref e ih =>
    rw [compile]
    exact ih.bind fun a => books_drawing fun d _ => books_writing rfl (books_pure d)
  | unary op e ih =>
    rw [compile]
    exact ih.bind fun a => books_drawing fun d _ =>
      (books_unary trivial op a).andThen (books_pure d)
  | binary op l r ihl ihr =>
    rw [compile]
    refine ihl.bind fun l => ihr.bind fun r => books_drawing fun d _ => ?_
    exact (books_binary trivial l r op).andThen (books_pure d)
  | call f args ih =>
    rw [compile]
    refine books_look fun c hc => ?_
    split
    · next target htarget =>
      refine books_noted hc (.function htarget) (books_drawing fun t _ => ?_)
      exact (books_pushAll t fun e he => ih e he).andThen (books_callPushed t _ List.mem_cons_self)
    · refine books_drawing (fun d _ => ?_) c hc
      split
      · exact books_error fun _ => ⟨_, rfl⟩
      · refine books_ite (books_failing fun _ => ⟨_, rfl⟩)
          ((books_compileAll fun e he => ih e he).bind fun regs => ?_)
        exact (books_device trivial (fun _ _ => trivial) f regs).andThen (books_pure d)
  | foreignUnary op e ih =>
    rw [compile]
    exact ih.andThen (books_drawing fun _ _ => books_error fun _ => ⟨_, rfl⟩)
  | foreignBinary op l r ihl ihr =>
    rw [compile]
    exact ihl.andThen (ihr.andThen (books_drawing fun _ _ => books_error fun _ => ⟨_, rfl⟩))
  | hole =>
    rw [compile]
    exact books_error fun _ => ⟨_, rfl⟩

end Expr

end WordC
