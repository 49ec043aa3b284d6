import WordC.Proofs.LabelLedger

/-!
# Every address has a place

All steps of the compiler keep the ledger of labels; the code of a function places the function's
own label, and in the end nothing is due. So in the listing of a program each label of code whose
address is taken has exactly one line, if no two functions share a name, and each label of data has
one or more.
-/

namespace WordC

open Asm Compile Step

/-- The label that a function is entered by. -/
def Func.entry (f : Func) : Label := functionLabel f.name

namespace Func

variable {known due : List Label}

theorem books_lines (f : Func) : Books Ledger known (f.entry :: due) due f.lines := by
  have hplain {line : Line} (h : line.isPlain = true) (hlabels : line.labels = [])
      {known due : List Label} :
      Books Ledger known due due (Compile.line line) :=
      books_line h (hlabels ▸ List.forall_mem_nil _)
  refine (hplain rfl rfl).andThen (books_look fun c hc => ?_)
  have hentry : (c.functions.get? f.name).getD (functionLabel f.name) = f.entry := by
    cases hlabel : c.functions.get? f.name with
    | none => rfl
    | some l => exact hc.functions f.name l hlabel
  rw [hentry]
  refine books_placing [] due ((hplain rfl rfl).andThen
    (books_drawing fun _ _ => (books_loadParams f.params 0).andThen ?_)) c hc
  refine Books.andThen
    (books_note fun c => ⟨rfl, rfl, rfl, rfl, rfl, rfl, rfl, fun _ hl => .inl hl⟩) ?_
  exact (Stmt.books_compileAll fun s _ => s.books_compile).andThen books_finish

/-- The code of a function places its label, and nothing else is left to place. -/
theorem brings_compile (f : Func) :
    Brings (Ledger known (f.entry :: due)) f.compile fun _ => Ledger known due := by
  intro c _ c' hc hrun
  obtain ⟨c₁, hlines, rfl⟩ := compile_eq_ok hrun
  have henter : Ledger known (f.entry :: due) (c.enter f) :=
    hc.same rfl rfl (Nat.le_refl _) rfl fun _ hl => .inl hl
  exact (f.books_lines.brings _ () c₁ henter hlines).same rfl rfl (Nat.le_refl _) rfl
    fun _ hl => .inl hl

end Func

/-! ### Programs -/

namespace Compile

variable {known due : List Label}

theorem brings_functionAll (fs : List Func) :
    Brings (Ledger known (fs.map Func.entry)) (functionAll fs) fun _ => Ledger known [] := by
  induction fs with
  | nil => exact (books_pure ()).brings
  | cons f fs ih => exact brings_then f.brings_compile ih

/-- Lines in front of code and between its parts. -/
theorem brings_line {line : Line} (htells : line.Tells) (hlabel : line.label? = none)
    (hlabels : line.labels = []) :
    Brings (Ledger known due) (Compile.line line) fun _ => Ledger known due :=
  brings_modify fun _ hc => hc.line htells hlabel (hlabels ▸ List.forall_mem_nil _)

theorem brings_blank : Brings (Ledger known due) (Compile.line .blank) fun _ => Ledger known due :=
  brings_line (Line.tells_of_isPlain rfl) rfl rfl

theorem brings_mainLines (main : Option Func) :
    Brings (Ledger known (main.toList.map Func.entry ++ due)) (mainLines main)
    fun _ => Ledger known due := by
  cases main with
  | none => exact (books_pure ()).brings
  | some f =>
    exact brings_then (brings_line (Line.tells_of_last (by decide)) rfl rfl)
      (brings_then brings_blank f.brings_compile)

theorem tells_includeLine (path : String) : (includeLine path).Tells := by
  refine Line.tells_of_last ?_
  rw [includeLine, Line.text, String.toList_append, show "\"".toList = ['"'] from rfl,
    List.getLast?_concat]
  decide

theorem brings_header (includes : List String) :
    Brings (Ledger known due) (header includes) fun _ => Ledger known due := by
  have hincludes (paths : List String) :
      Brings (Ledger known due) (paths.forM fun path => Compile.line (includeLine path))
      fun _ => Ledger known due := by
    induction paths with
    | nil => exact (books_pure _).brings
    | cons path paths ih => exact brings_then (brings_line (tells_includeLine path) rfl rfl) ih
  refine brings_then (brings_line (Line.tells_of_last (by decide)) rfl rfl)
    (brings_then brings_blank ?_)
  exact brings_then (hincludes includes) brings_blank

end Compile

namespace Program

variable {p : Program}

/-- The labels of the functions, in the order of their code. -/
def entries (p : Program) : List Label :=
  p.mainFunction?.toList.map Func.entry ++ p.otherFunctions.map Func.entry

theorem isSome_function? {f : Func} (hf : f ∈ p.functions) :
    (p.function? f.name).isSome = true := by
  have hfold (fs : List Func) (found : Option Func) (h : found.isSome = true ∨ f ∈ fs) :
      (fs.foldl (fun found g => if g.name == f.name then some g else found) found).isSome =
      true := by
    induction fs generalizing found with
    | nil => exact h.resolve_right List.not_mem_nil
    | cons g fs ih =>
      rw [List.foldl_cons]
      refine ih _ ?_
      by_cases hg : g.name = f.name
      · simp [hg]
      · rcases h with h | h
        · simp [hg, h]
        · exact .inr ((List.mem_cons.mp h).resolve_left fun heq => hg (heq ▸ rfl))
  exact hfold p.functions none (.inr hf)

theorem entry_mem_entries {f : Func} (hf : f ∈ p.functions) : f.entry ∈ p.entries := by
  obtain ⟨g, hg⟩ := Option.isSome_iff_exists.mp (isSome_function? hf)
  have hentry : g.entry = f.entry := congrArg functionLabel (mem_of_function? hg).2
  rw [← hentry, entries, List.mem_append]
  rcases main_or_other hg with hmain | hother
  · rw [hmain]
    exact .inl List.mem_cons_self
  · exact .inr (List.mem_map_of_mem hother)

/-- Functions with different names have different labels. -/
theorem nodup_entries (h : (p.functions.map (·.name)).Nodup) : p.entries.Nodup := by
  have hothers : (p.otherFunctions.map Func.entry).Nodup := by
    have hnames : (p.otherFunctions.map (·.name)).Nodup := h.sublist (List.filter_sublist.map _)
    have hlabels := hnames.map fun _ _ => functionLabel_inj
    rwa [List.map_map] at hlabels
  rw [entries]
  cases hmain : p.mainFunction? with
  | none => exact hothers
  | some f =>
    refine List.nodup_cons.mpr ⟨fun hmem => ?_, hothers⟩
    obtain ⟨g, hg, hentry⟩ := List.mem_map.mp hmem
    have hname : g.name = "main" := (functionLabel_inj hentry).trans (mem_of_function? hmain).2
    have hother := (List.mem_filter.mp hg).2
    simp [hname] at hother

theorem mem_of_functionTable (fs : List Func) {t : Table Label} {x : String} {l : Label}
    (h : (fs.foldl (fun t f => t.set f.name (functionLabel f.name)) t).get? x = some l) :
    (∃ f ∈ fs, l = f.entry) ∨ t.get? x = some l := by
  induction fs generalizing t with
  | nil => exact .inr h
  | cons f fs ih =>
    rcases ih h with ⟨g, hg, hl⟩ | hl
    · exact .inl ⟨g, List.mem_cons_of_mem _ hg, hl⟩
    · rw [Table.get?_set] at hl
      split at hl
      · exact .inl ⟨f, List.mem_cons_self, (Option.some.inj hl).symm⟩
      · exact .inr hl

theorem isEntry_of_mem_entries {l : Label} (h : l ∈ p.entries) : l.isEntry = true := by
  rw [entries, ← List.map_append] at h
  obtain ⟨f, -, rfl⟩ := List.mem_map.mp h
  exact isEntry_functionLabel f.name

/-- At the start the labels of all functions are due. -/
theorem ledger_start (h : (p.functions.map (·.name)).Nodup) : Ledger p.entries p.entries {} where
  nodup := nodup_entries h
  code l hl := Label.isCode_of_isEntry (isEntry_of_mem_entries hl)
  numbers stem n hn := by cases isEntry_of_mem_entries hn
  covered l hl := by
    rcases hl with hl | hl | hl
    · exact .inl hl
    · rcases hl with ⟨_, hl, -⟩ | ⟨_, hl⟩ | ⟨_, hl⟩ | ⟨_, hl⟩ | ⟨_, hl⟩ <;> cases hl
    · cases hl
  functions f l hl := by cases hl
  tells := List.forall_mem_nil _
  data := List.forall_mem_nil _

/-- Calls find the labels of the functions in a table. -/
theorem brings_functionTable : Brings (Ledger p.entries p.entries) (modify fun c => { c with
    functions := p.functions.foldl (fun t f => t.set f.name (functionLabel f.name)) c.functions })
      fun _ => Ledger p.entries p.entries := by
  refine brings_modify fun c hc => ?_
  refine hc.change [] (List.forall_mem_nil _) rfl (List.append_nil _).symm (Nat.le_refl _)
    (linked_functions p.functions hc.functions) fun l hl => ?_
  rcases Compiler.Notes.of_functions (c := c) hl with hl | ⟨x, hx⟩
  · exact .inl hl
  · rcases mem_of_functionTable p.functions hx with ⟨f, hf, rfl⟩ | hx
    · exact .inr (.inl (entry_mem_entries hf))
    · exact .inl (.function hx)

/-- A program that is compiled has placed all its labels when the data section is added. -/
theorem listing_ledger {includes : List String} {lines : Array Line}
    (hnames : (p.functions.map (·.name)).Nodup) (h : p.listing includes = .ok lines) :
    ∃ c, Ledger p.entries [] c ∧ lines = (joinData c).code := by
  obtain ⟨k, hcompile, rfl⟩ := compile_of_listing h
  rw [compile_eq] at hcompile
  obtain ⟨_, k₀, hempty, hcompile⟩ := bind_eq_ok hcompile
  cases hempty
  have hdata : Brings (Ledger p.entries []) (modify joinData)
      fun _ c' => ∃ c, Ledger p.entries [] c ∧ c'.code = (joinData c).code :=
      brings_modify fun c hc => ⟨c, hc, rfl⟩
  have hsteps := brings_then (brings_header includes) (brings_then brings_functionTable
    (brings_then (books_globalAll p.globals).brings (brings_then (brings_mainLines p.mainFunction?)
      (brings_then (brings_functionAll p.otherFunctions) hdata))))
  exact hsteps {} () k (ledger_start hnames) hcompile

end Program

/-! ### Listings -/

namespace Compile

/-- Between code and data stand lines without labels. -/
theorem joinData_lines (c : Compiler) :
    ∃ gap : List Line, (joinData c).code.toList = c.code.toList ++ (gap ++ c.data.toList) ∧
    ∀ line ∈ gap, line.Tells ∧ line.label? = none ∧ line.labels = [] := by
  unfold joinData
  split
  · next hempty =>
    have hdata : c.data.toList = [] := by simpa using hempty
    exact ⟨[], by rw [hdata, List.append_nil, List.append_nil], List.forall_mem_nil _⟩
  · refine ⟨[.blank, .directive "; Data section"], by simp, ?_⟩
    exact List.forall_mem_cons.mpr ⟨⟨Line.tells_of_isPlain rfl, rfl, rfl⟩,
      List.forall_mem_singleton.mpr ⟨Line.tells_of_last (by decide), rfl, rfl⟩⟩

end Compile

namespace Ledger

variable {known : List Label} {c : Compiler} {l : Label}

theorem isData_of_mem (h : Ledger known [] c) (hl : l ∈ placed c.data.toList) : l.isData = true :=
  h.data _ (mem_placed_iff.mp hl)

/-- With the data section behind the code nothing changes for labels: lines still tell, the labels
of both parts stand there, and the data section uses none. -/
theorem joined (h : Ledger known [] c) : (∀ line ∈ (joinData c).code.toList, line.Tells) ∧
    placed (joinData c).code.toList = placed c.code.toList ++ placed c.data.toList ∧
    addressed (joinData c).code.toList = addressed c.code.toList := by
  obtain ⟨gap, hlines, hgap⟩ := joinData_lines c
  have hplaced : placed gap = [] :=
    List.filterMap_eq_nil_iff.mpr fun line hline => (hgap line hline).2.1
  have hgapped : addressed gap = [] :=
    List.flatMap_eq_nil_iff.mpr fun line hline => (hgap line hline).2.2
  have hdata : addressed c.data.toList = [] :=
    List.flatMap_eq_nil_iff.mpr fun line hline => Line.labels_of_isDatum (h.data line hline)
  rw [hlines]
  refine ⟨?_, ?_, ?_⟩
  · refine List.forall_mem_append.mpr
      ⟨h.tells, List.forall_mem_append.mpr ⟨fun line hline => (hgap line hline).1, ?_⟩⟩
    exact fun line hline => Line.tells_of_isDatum (h.data line hline)
  · rw [placed_append, placed_append, hplaced, List.nil_append]
  · rw [addressed_append, addressed_append, hgapped, hdata, List.nil_append, List.append_nil]

/-- Where nothing is due, a label that the code places has one line. -/
theorem count_eq_one (h : Ledger known [] c) (hl : l ∈ placed c.code.toList) :
    ((joinData c).code.toList.map Line.text).count (l.text ++ ":") = 1 := by
  obtain ⟨htells, hplaced, -⟩ := h.joined
  have hcode : l.isCode = true := h.code l (List.mem_append_left _ hl)
  have hdata : l ∉ placed c.data.toList :=
    fun hmem => Label.text_ne_of_isCode hcode (h.isData_of_mem hmem) rfl
  have hnodup : (placed c.code.toList).Nodup := List.append_nil (placed c.code.toList) ▸ h.nodup
  calc ((joinData c).code.toList.map Line.text).count (l.text ++ ":")
      = (placed (joinData c).code.toList).count l := Line.count_text hcode htells
    _ = (placed c.code.toList).count l + (placed c.data.toList).count l := by
      rw [hplaced, List.count_append]
    _ = 1 := by rw [List.count_eq_one_of_mem hnodup hl, List.count_eq_zero_of_not_mem hdata]

/-- Where nothing is due, every label in use is defined. -/
theorem defined (h : Ledger known [] c) (hl : l ∈ known ∨ l ∈ addressed c.code.toList) :
    (l.isCode = true ∧ ((joinData c).code.toList.map Line.text).count (l.text ++ ":") = 1) ∨
      (l.isData = true ∧ l.text ++ ":" ∈ (joinData c).code.toList.map Line.text) := by
  rcases h.covered l (hl.imp_right .inr) with hmem | hmem
  · rw [List.append_nil] at hmem
    exact .inl ⟨h.code l (List.mem_append_left _ hmem), h.count_eq_one hmem⟩
  · have hplaced : l ∈ placed (joinData c).code.toList := by
      rw [h.joined.2.1]
      exact List.mem_append_right _ hmem
    exact .inr ⟨h.isData_of_mem hmem, List.mem_map_of_mem (mem_placed_iff.mp hplaced)⟩

end Ledger

/-- The listing of a program in which no two functions share a name is closed: a label of code whose
address is taken has exactly one line, a label of data has one or more, and the label of each
function has one line, too. Labels with a number differ in text from those of all functions,
variables and arrays. -/
theorem listing_closed {p : Program} {includes : List String} {lines : Array Line}
    (hnames : (p.functions.map (·.name)).Nodup) (h : p.listing includes = .ok lines) :
    (∀ l ∈ addressed lines.toList,
      (l.isCode = true ∧ (lines.toList.map Line.text).count (l.text ++ ":") = 1) ∨
        (l.isData = true ∧ l.text ++ ":" ∈ lines.toList.map Line.text)) ∧
      (∀ f ∈ p.functions, (lines.toList.map Line.text).count
        ((functionLabel f.name).text ++ ":") = 1) ∧
      ∀ l m : Label, l.isNumbered = true → m.isEntry = true ∨ m.isData = true →
      l.text ≠ m.text := by
  obtain ⟨c, hc, rfl⟩ := p.listing_ledger hnames h
  refine ⟨fun l hl => hc.defined (.inr ?_), fun f hf => ?_, fun l m => Label.text_ne_of_isNumbered⟩
  · rwa [hc.joined.2.2] at hl
  · -- a function is entered by its label, which is none of data
    rcases hc.defined (.inl (p.entry_mem_entries hf)) with hentry | hdata
    · exact hentry.2
    · exact absurd rfl
        (Label.text_ne_of_isCode (Label.isCode_of_isEntry (isEntry_functionLabel f.name)) hdata.1)

/-- A loop that is left from inside, with a call, a product, a global and an array. -/
def rounds : Program where
  globals := [.var { name := "g" }]
  functions := [
    { name := "main", params := [], body := [
      .decl (.array { name := "a", size := .literal 2 }),
      .whileLoop (.binary .less (.name "g") (.literal 3)) (.block [
        .assignIndex "a" (.literal 0) (.call "f" [.name "g"]),
        .ifThen (.index "a" (.literal 1)) .breakLoop])] },
    { name := "f", params := ["x"], body := [.ret (some (.binary .mul (.name "x") (.literal 2)))] }]

def roundsLines : Array Line := (rounds.listing []).toOption.getD #[]

theorem rounds_listing : rounds.listing [] = .ok roundsLines := by
  have hok : (rounds.listing []).isOk = true := by decide +kernel
  unfold roundsLines
  rcases hlines : rounds.listing [] with _ | lines
  · rw [hlines] at hok
    cases hok
  · rfl

theorem rounds_closed : (rounds.functions.map (·.name)).Nodup ∧
    rounds.listing [] = .ok roundsLines ∧ [.minted .whileEnd 2, .minted .mulLoop 6, .function "f",
      .globalVar "g", .localArray "main" "a" 0] ⊆
      addressed roundsLines.toList ∧
    (roundsLines.toList.map Line.text).count ((Label.minted .whileEnd 2).text ++ ":") = 1 ∧
    (roundsLines.toList.map Line.text).count ((Label.function "f").text ++ ":") = 1 ∧
    (Label.localArray "main" "a" 0).text ++ ":" ∈ roundsLines.toList.map Line.text := by
  have hnames : (rounds.functions.map (·.name)).Nodup := by decide
  have hlabels : [.minted .whileEnd 2, .minted .mulLoop 6, .function "f", .globalVar "g",
        .localArray "main" "a" 0] ⊆
      addressed roundsLines.toList := by decide +kernel
  obtain ⟨hused, hfunctions, -⟩ := listing_closed hnames rounds_listing
  have hexit := hused (.minted .whileEnd 2) (hlabels (by simp))
  have harray := hused (.localArray "main" "a" 0) (hlabels (by simp))
  refine ⟨hnames, rounds_listing, hlabels, ?_, ?_, ?_⟩
  · exact (hexit.resolve_right fun h => absurd h.1 (by decide)).2
  · exact hfunctions ⟨"f", ["x"], [.ret (some (.binary .mul (.name "x") (.literal 2)))], false⟩
      (List.mem_cons_of_mem _ List.mem_cons_self)
  · exact (harray.resolve_left fun h => absurd h.1 (by decide)).2

end WordC
