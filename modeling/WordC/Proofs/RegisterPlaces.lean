import Mathlib.Data.List.Basic
import Mathlib.Data.List.Induction
import WordC.Compile.Stmt
import WordC.Proofs.Tables

/-!
# Registers by name

The compiler keeps the register of a variable under its name alone. So where the declarations of a
function are placed can be read off its text: the marks of a function are its declarations and
assignments in order, with the scopes around them, and each mark changes the table of registers in a
simple way. `Mark.get?_table` gives the table in closed form: a name has the register that was last
asked for it, and otherwise its number among the names, counted from eleven.
-/

namespace WordC

open Asm

theorem Table.contains_iff_mem_keys {α : Type} (t : Table α) {x : String} :
    t.contains x = true ↔ x ∈ t.keys := by
  refine ⟨fun h => ?_, contains_of_mem_keys⟩
  obtain ⟨a, ha⟩ := Option.isSome_iff_exists.mp h
  exact List.mem_map.mpr ⟨(x, a), mem_of_find? ha, rfl⟩

/-- What a function declares and assigns, in the order of its text, with the scopes around it. -/
inductive Mark where
  | enter
  | leave
  | param (x : String)
  | var (d : VarDecl)
  | pointer (d : PointerDecl)
  /-- A name that is only assigned is placed like one that is declared. -/
  | assigned (x : String)

namespace Mark

def name? : Mark → Option String
  | enter | leave => none
  | param x | assigned x => some x
  | var d => some d.name
  | pointer d => some d.name

/-- The name that is declared. -/
def declared? : Mark → Option String
  | param x => some x
  | var d => some d.name
  | pointer d => some d.name
  | enter | leave | assigned _ => none

/-- The register that is asked for. -/
def fixed? : Mark → Option Reg
  | var d => d.register.map Fin.val
  | _ => none

/-- A parameter, or a variable that asks for no register. -/
def isPlain : Mark → Bool
  | param _ => true
  | var d => d.register.isNone
  | _ => false

theorem name?_of_declared? {m : Mark} {x : String} (h : m.declared? = some x) :
    m.name? = some x := by
  cases m with
  | param | var | pointer => exact h
  | enter | leave | assigned => cases h

/-! ### The table behind marks -/

/-- A register that is asked for is given; without that, a name that has a register keeps it. -/
def take (t : Table Reg) (m : Mark) : Table Reg :=
  match m.name?, m.fixed? with
  | none, _ => t
  | some x, some r => t.set x r
  | some x, none => if t.contains x then t else t.set x (11 + t.size)

def table (ms : List Mark) : Table Reg := ms.foldl take {}

/-- The names in the order in which they first come. -/
def names (ms : List Mark) : List String := (ms.filterMap name?).eraseDups

/-- The register that was last asked for a name. -/
def fixedFor (x : String) (ms : List Mark) : Option Reg :=
  (ms.filterMap fun m => if m.name? = some x then m.fixed? else none).getLast?

/-- The register of a name behind marks. -/
def registerAfter (ms : List Mark) (x : String) : Reg :=
  (fixedFor x ms).getD (11 + (names ms).idxOf x)

variable {ms : List Mark} {m : Mark} {x y : String} {r : Reg}

theorem mem_names : x ∈ names ms ↔ ∃ m ∈ ms, m.name? = some x := by
  rw [names, List.mem_eraseDups, List.mem_filterMap]

theorem names_append (ms ms' : List Mark) : ∃ rest, names (ms ++ ms') = names ms ++ rest := by
  rw [names, List.filterMap_append, List.eraseDups_append]
  exact ⟨_, rfl⟩

theorem table_concat : table (ms ++ [m]) = take (table ms) m := by
  rw [table, List.foldl_append]
  rfl

theorem names_concat_none (hm : m.name? = none) : names (ms ++ [m]) = names ms := by
  simp [names, hm]

theorem names_concat_some (hm : m.name? = some x) :
    names (ms ++ [m]) = if x ∈ names ms then names ms else names ms ++ [x] := by
  have hnames : names (ms ++ [m]) = (ms.filterMap name? ++ [x]).eraseDups := by
    simp [names, hm]
  rw [hnames, names, List.eraseDups_append]
  simp only [List.mem_eraseDups]
  generalize ms.filterMap name? = xs
  by_cases hx : x ∈ xs
  · simp [List.removeAll, hx]
  · simp [List.removeAll, hx, List.eraseDups_cons]

theorem fixedFor_concat : fixedFor x (ms ++ [m]) = if m.name? = some x
    then m.fixed?.or (fixedFor x ms) else fixedFor x ms := by
  by_cases hm : m.name? = some x
  · cases hfixed : m.fixed? <;> simp [fixedFor, hm, hfixed]
  · simp [fixedFor, hm]

theorem fixedFor_eq_none (h : ∀ m ∈ ms, m.name? = some x → m.fixed? = none) :
    fixedFor x ms = none := by
  rw [fixedFor, List.getLast?_eq_none_iff, List.filterMap_eq_nil_iff]
  intro m hm
  split
  · next hx => exact h m hm hx
  · rfl

theorem take_fixed (hx : m.name? = some x) (hr : m.fixed? = some r) (t : Table Reg) :
    take t m = t.set x r := by
  rw [take, hx, hr]

theorem take_plain (hx : m.name? = some x) (hr : m.fixed? = none) (t : Table Reg) :
    take t m = if t.contains x then t else t.set x (11 + t.size) := by
  rw [take, hx, hr]

theorem take_none (hm : m.name? = none) (t : Table Reg) : take t m = t := by
  rw [take, hm]

theorem keys_take (t : Table Reg) (hx : m.name? = some x) :
    (take t m).keys = if t.contains x then t.keys else t.keys ++ [x] := by
  rcases hr : m.fixed? with _ | r
  · rw [take_plain hx hr]
    by_cases ht : t.contains x = true
    · rw [if_pos ht, if_pos ht]
    · rw [if_neg ht, Table.keys_set]
  · rw [take_fixed hx hr, Table.keys_set]

theorem keys_table (ms : List Mark) : (table ms).keys = names ms := by
  induction ms using List.reverseRecOn with
  | nil => rfl
  | append_singleton ms m ih =>
    rw [table_concat]
    rcases hm : m.name? with _ | x
    · rw [names_concat_none hm, take_none hm, ih]
    · rw [names_concat_some hm, keys_take _ hm, ih]
      simp only [Table.contains_iff_mem_keys, ih]

theorem size_table (ms : List Mark) : (table ms).size = (names ms).length := by
  rw [← keys_table, Table.keys, List.length_map, Table.size]

/-- A mark of another name changes nothing for a name that is there. -/
theorem registerAfter_concat_ne (hx : x ∈ names ms) (hm : m.name? ≠ some x) :
    registerAfter (ms ++ [m]) x = registerAfter ms x := by
  obtain ⟨rest, hrest⟩ := names_append ms [m]
  rw [registerAfter, registerAfter, fixedFor_concat, if_neg hm, hrest, List.idxOf_append_of_mem hx]

theorem mem_names_concat_ne (hm : m.name? ≠ some x) : x ∈ names (ms ++ [m]) ↔ x ∈ names ms := by
  simp only [mem_names, List.mem_append, List.mem_singleton]
  constructor
  · rintro ⟨m', hmem | rfl, hx⟩
    · exact ⟨m', hmem, hx⟩
    · exact absurd hx hm
  · rintro ⟨m', hmem, hx⟩
    exact ⟨m', .inl hmem, hx⟩

theorem mem_names_concat_self (hm : m.name? = some x) : x ∈ names (ms ++ [m]) :=
  mem_names.mpr ⟨m, List.mem_append_right _ (List.mem_singleton_self m), hm⟩

/-- What a name gets by its own mark. -/
theorem registerAfter_concat_self (hm : m.name? = some x) : registerAfter (ms ++ [m]) x =
    m.fixed?.getD (if x ∈ names ms then registerAfter ms x else 11 + (names ms).length) := by
  rw [registerAfter, fixedFor_concat, if_pos hm, names_concat_some hm]
  rcases m.fixed? with _ | r
  · by_cases hx : x ∈ names ms
    · rw [if_pos hx]
      exact (if_pos hx).symm
    · have hnone : fixedFor x ms = none :=
        fixedFor_eq_none fun m' hm' hname => absurd (mem_names.mpr ⟨m', hm', hname⟩) hx
      simp [hx, hnone, List.idxOf_append]
  · rfl

/-- The register of a name behind marks, if they name it. -/
theorem get?_table (ms : List Mark) (x : String) :
    (table ms).get? x = if x ∈ names ms then some (registerAfter ms x) else none := by
  induction ms using List.reverseRecOn with
  | nil => rfl
  | append_singleton ms m ih =>
    rw [table_concat]
    by_cases hm : m.name? = some x
    · rw [if_pos (mem_names_concat_self hm), registerAfter_concat_self hm]
      rcases hr : m.fixed? with _ | r
      · rw [take_plain hm hr]
        by_cases hx : x ∈ names ms
        · rw [if_pos ((Table.contains_iff_mem_keys _).mpr (keys_table ms ▸ hx)), ih]
          simp [hx]
        · rw [if_neg fun h => hx (keys_table ms ▸ (Table.contains_iff_mem_keys _).mp h),
            Table.get?_set_self, size_table]
          simp [hx]
      · rw [take_fixed hm hr, Table.get?_set_self]
        rfl
    · have hother : (take (table ms) m).get? x = (table ms).get? x := by
        rcases hy : m.name? with _ | y
        · rw [take_none hy]
        · have hne : y ≠ x := fun heq => hm (heq ▸ hy)
          rcases hr : m.fixed? with _ | r
          · rw [take_plain hy hr]
            split
            · rfl
            · exact Table.get?_set_ne _ hne _
          · rw [take_fixed hy hr, Table.get?_set_ne _ hne]
      rw [hother, ih]
      by_cases hx : x ∈ names ms
      · rw [if_pos hx, if_pos ((mem_names_concat_ne hm).mpr hx), registerAfter_concat_ne hx hm]
      · rw [if_neg hx, if_neg fun h => hx ((mem_names_concat_ne hm).mp h)]

/-! ### Names without a register of their own choice -/

/-- No mark asks for a register for the name. -/
def Unfixed (ms : List Mark) (x : String) : Prop := ∀ m ∈ ms, m.name? = some x → m.fixed? = none

/-- Such a name has its number among all names of the function, from its first mark on. -/
theorem registerAfter_of_unfixed {pre post : List Mark} (hms : ms = pre ++ post)
    (hx : x ∈ names pre) (h : Unfixed ms x) : registerAfter pre x = 11 + (names ms).idxOf x := by
  have hnone : fixedFor x pre = none :=
    fixedFor_eq_none fun m hm => h m (hms ▸ List.mem_append_left post hm)
  obtain ⟨rest, hrest⟩ := names_append pre post
  rw [registerAfter, hnone, hms, hrest, List.idxOf_append_of_mem hx]
  rfl

end Mark

/-! ### The marks of a function -/

def Decl.marks : Decl → List Mark
  | .var d => [.var d]
  | .array _ => []
  | .pointer d => [.pointer d]

/-- An assignment gives out a register, unless the name is a global or reads like a register. -/
def assignMarks (globals : Table Label) (x : String) : List Mark :=
  if globals.contains x || (registerDigits? x).isSome then [] else [.assigned x]

def ForInit.marks (globals : Table Label) : ForInit → List Mark
  | declare d => [.var d]
  | assign x _ => assignMarks globals x

def ForStep.marks (globals : Table Label) : ForStep → List Mark
  | increment _ _ | decrement _ _ => []
  | assign x _ => assignMarks globals x

mutual

/-- The step of a `for` stands behind its body, as in the code. -/
def Stmt.marks (globals : Table Label) : Stmt → List Mark
  | decl d => d.marks
  | assign x _ => assignMarks globals x
  | ifThen _ s | whileLoop _ s | doWhile s _ => s.marks globals
  | ifElse _ s t => s.marks globals ++ t.marks globals
  | forLoop init _ step s => .enter :: (init.toList.flatMap (·.marks globals) ++ s.marks globals ++
      step.toList.flatMap (·.marks globals) ++ [.leave])
  | block ss => .enter :: (Stmt.marksAll globals ss ++ [.leave])
  | assignIndex _ _ _ | assignDeref _ _ | ret _ | call _ | increment _ _ | decrement _ _ | breakLoop
  | continueLoop | asm _
  | hole => []

def Stmt.marksAll (globals : Table Label) : List Stmt → List Mark
  | [] => []
  | s :: ss => s.marks globals ++ Stmt.marksAll globals ss

end

/-- The body of a function is a block inside of its parameters. -/
def Func.marks (f : Func) (globals : Table Label) : List Mark :=
  f.params.map .param ++ (Stmt.block f.body).marks globals

/-! ### Scopes that overlap -/

namespace Mark

/-- How many scopes are open behind marks, counted from `n`, unless they leave one more than that.
-/
def opened : (n : Nat) → List Mark → Option Nat
  | n, [] => some n
  | n, enter :: ms => opened (n + 1) ms
  | 0, leave :: _ => none
  | n + 1, leave :: ms => opened n ms
  | n, param _ :: ms | n, var _ :: ms | n, pointer _ :: ms | n, assigned _ :: ms => opened n ms

/-- Two declarations whose scopes overlap: the second stands in the block of the first, and if it is
of the same name, in a block inside of that. -/
structure Overlap (ms pre : List Mark) (m : Mark) (x : String) (mid : List Mark) (m' : Mark)
    (x' : String) : Prop where
  place : ∃ post, ms = pre ++ m :: (mid ++ m' :: post)
  first : m.declared? = some x
  second : m'.declared? = some x'
  inside : ∃ n, opened 0 mid = some n ∧ (x = x' → 0 < n)

/-- A name that is declared once is not declared again. -/
theorem Overlap.ne_of_nodup {ms pre mid : List Mark} {m m' : Mark} {x x' : String}
    (h : Overlap ms pre m x mid m' x') (hnodup : (ms.filterMap declared?).Nodup) : x ≠ x' := by
  rintro rfl
  obtain ⟨post, rfl⟩ := h.place
  simp [h.first, h.second, List.nodup_append] at hnodup

end Mark

end WordC
