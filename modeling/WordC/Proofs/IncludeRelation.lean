import WordC.Proofs.Gathering
import WordC.Proofs.Paths

/-!
# Which files a file includes

A well-formed include line names a file, and the name is looked up below the directory of the
including file, below the base and below the working directory. While no macro is defined a line
either stands for itself, or for nothing, or fails, or stands for the file it includes, and this
depends on the base and the line alone.
-/

namespace WordC

/-- A well-formed include line and the name in it. -/
def Directive.Includes (cs name : List Char) : Prop :=
  IsLine "#include" cs ∧ includeName? (Text.trim cs) = some name ∧ name ≠ []

/-- The name in a line, if it is a well-formed include line. -/
def Directive.included? (cs : List Char) : Option (List Char) :=
  if "#include".toList.isPrefixOf (Text.trim cs)
    then (includeName? (Text.trim cs)).filter (· ≠ []) else none

theorem Directive.included?_eq_some {cs name : List Char} :
    included? cs = some name ↔ Includes cs name := by
  unfold included?
  constructor
  · intro h
    split at h
    · next hstarts =>
      obtain ⟨hname, hne⟩ := Option.filter_eq_some_iff.mp h
      exact ⟨hstarts, hname, of_decide_eq_true hne⟩
    · cases h
  · rintro ⟨hstarts, hname, hne⟩
    rw [if_pos (id hstarts : "#include".toList.isPrefixOf (Text.trim cs) = true), hname]
    exact Option.filter_eq_some_iff.mpr ⟨rfl, decide_eq_true hne⟩

namespace Files

/-- The path that a name in a file stands for. -/
def lookUp (w : Files) (base dir name : String) : Option String :=
  if Path.isAbsolute name then some name
  else (((if dir = "" then [] else [Path.join dir name]) ++ [Path.join base name, name]).find?
    w.contains).map w.absolute

/-- The file at `a` includes the file at `b` with its line `n`, counted from zero. -/
def IncludesAt (w : Files) (base a : String) (n : Nat) (b : String) : Prop :=
  ∃ text cs name p, w.tree.read w.cwd a = .ok text ∧ (Text.pieces text)[n]? = some cs ∧
    Directive.Includes cs name ∧ w.lookUp base (Path.directory a) (String.ofList name) = some p ∧
    w.absolute p = b

/-- The file at `a` includes the file at `b`. -/
def Includes (w : Files) (base a b : String) : Prop := ∃ n, w.IncludesAt base a n b

variable {w : Files} {base a b b' : String} {n : Nat}

theorem includesAt_iff {text cs name : List Char} {p : String}
    (hread : w.tree.read w.cwd a = .ok text) (hcs : (Text.pieces text)[n]? = some cs)
    (hname : Directive.Includes cs name)
    (hp : w.lookUp base (Path.directory a) (String.ofList name) = some p) :
    w.IncludesAt base a n b ↔ w.absolute p = b := by
  constructor
  · rintro ⟨text', cs', name', p', hread', hcs', hname', hp', rfl⟩
    obtain rfl := Except.ok.inj (hread.symm.trans hread')
    obtain rfl := Option.some.inj (hcs.symm.trans hcs')
    obtain rfl := Option.some.inj (hname.2.1.symm.trans hname'.2.1)
    rw [Option.some.inj (hp.symm.trans hp')]
  · exact fun hb => ⟨text, cs, name, p, hread, hcs, hname, hp, hb⟩

/-- The file that a line of the file at `a` includes. -/
def includeAt? (w : Files) (base a : String) (n : Nat) : Option String := do
  let text ← (w.tree.read w.cwd a).toOption
  let cs ← (Text.pieces text)[n]?
  let name ← Directive.included? cs
  let p ← w.lookUp base (Path.directory a) (String.ofList name)
  return w.absolute p

theorem includesAt_iff_includeAt? : w.IncludesAt base a n b ↔ w.includeAt? base a n = some b := by
  constructor
  · rintro ⟨text, cs, name, p, hread, hcs, hname, hp, rfl⟩
    rw [includeAt?, hread]
    refine Option.bind_eq_some_iff.mpr ⟨text, rfl, Option.bind_eq_some_iff.mpr ⟨cs, hcs, ?_⟩⟩
    refine Option.bind_eq_some_iff.mpr ⟨name, Directive.included?_eq_some.mpr hname, ?_⟩
    exact Option.bind_eq_some_iff.mpr ⟨p, hp, rfl⟩
  · intro h
    obtain ⟨text, htext, h⟩ := Option.bind_eq_some_iff.mp h
    obtain ⟨cs, hcs, h⟩ := Option.bind_eq_some_iff.mp h
    obtain ⟨name, hname, h⟩ := Option.bind_eq_some_iff.mp h
    obtain ⟨p, hp, h⟩ := Option.bind_eq_some_iff.mp h
    refine ⟨text, cs, name, p, ?_, hcs, Directive.included?_eq_some.mp hname, hp, Option.some.inj h⟩
    cases hread : w.tree.read w.cwd a with
    | error e =>
      rw [hread] at htext
      cases htext
    | ok text' =>
      rw [hread] at htext
      rw [Option.some.inj htext]

/-- A line includes one file at most. -/
theorem IncludesAt.unique (h : w.IncludesAt base a n b)
    (h' : w.IncludesAt base a n b') : b = b' := by
  obtain ⟨text, cs, name, p, hread, hcs, hname, hp, rfl⟩ := h
  exact (includesAt_iff hread hcs hname hp).mp h'

/-- A line that is no include line includes nothing. -/
theorem not_includesAt {text cs : List Char} (hread : w.tree.read w.cwd a = .ok text)
    (hcs : (Text.pieces text)[n]? = some cs) (hnot : ¬ Directive.IsLine "#include" cs) :
    ¬ w.IncludesAt base a n b := by
  rintro ⟨text', cs', name, p, hread', hcs', hname, -⟩
  obtain rfl := Except.ok.inj (hread.symm.trans hread')
  obtain rfl := Option.some.inj (hcs.symm.trans hcs')
  exact hnot hname.1

theorem IncludesAt.lt {text : List Char} (hread : w.tree.read w.cwd a = .ok text)
    (h : w.IncludesAt base a n b) : n < (Text.pieces text).length := by
  obtain ⟨text', cs, name, p, hread', hcs, -⟩ := h
  obtain rfl := Except.ok.inj (hread.symm.trans hread')
  exact (List.getElem?_eq_some_iff.mp hcs).1

end Files

/-! ### What a line stands for -/

theorem Directive.not_isLine_of_include {cs : List Char} (h : IsLine "#include" cs) :
    ¬ IsLine "#define" cs ∧ ¬ IsLine "#undef" cs := by
  obtain ⟨rest, hrest⟩ := List.isPrefixOf_iff_prefix.mp h
  unfold IsLine
  rw [← hrest]
  exact ⟨by simp [List.isPrefixOf], by simp [List.isPrefixOf]⟩

namespace Gather

variable {w : Files} {rounds : Nat} {file : String → Gather (List (List Char))} {dir : String}
  {n : Nat} {cs : List Char}
variable {g : Gathered}

variable {p : String} {name : List Char}

theorem resolve_some {name : String} (h : w.lookUp g.base dir name = some p) :
    resolve w (some dir) name g = (.ok p, g) := by
  unfold Files.lookUp at h
  unfold resolve
  split at h
  · next habs =>
    rw [if_pos habs, Option.some.inj h]
    rfl
  · next habs =>
    obtain ⟨q, hq, rfl⟩ := Option.map_eq_some_iff.mp h
    rw [if_neg habs, Step.bind_ok (Step.get_apply g), hq]
    rfl

theorem resolve_none {name : String} (h : w.lookUp g.base dir name = none) :
    resolve w (some dir) name g = (.error (.notFound name), g) := by
  unfold Files.lookUp at h
  unfold resolve
  split at h
  · contradiction
  · next habs =>
    rw [if_neg habs, Step.bind_ok (Step.get_apply g), Option.map_eq_none_iff.mp h]
    rfl

theorem expand_of_empty (hrounds : 0 < rounds) (hg : g.macros = {}) :
    expand rounds cs g = (.ok cs, g) := by
  have hplain : Macros.expand? {} rounds cs = some cs :=
    Macros.settle_of_plain Macros.Written.empty.lists_order (fun _ _ => rfl) hrounds
  rw [expand, Step.bind_ok (Step.get_apply g), hg, hplain]
  rfl

/-- Without macros a line that is no directive stands for itself, and one that takes a macro back
for nothing. -/
theorem line_of_other (hrounds : 0 < rounds) (hg : g.macros = {})
    (hdefine : ¬ Directive.IsLine "#define" cs) (hinclude : ¬ Directive.IsLine "#include" cs) :
    line w rounds file (some dir) n cs g =
    (.ok (if "#undef".toList.isPrefixOf (Text.trim cs) then [] else [cs]), g) := by
  unfold Directive.IsLine at hdefine hinclude
  unfold line
  dsimp only
  rw [if_neg hdefine, if_neg hinclude]
  split
  · obtain ⟨base, included, macros⟩ := g
    obtain rfl : macros = {} := hg
    cases Directive.undef? cs <;> rfl
  · rw [Step.bind_ok (expand_of_empty hrounds hg)]
    rfl

theorem line_of_bad (hinclude : Directive.IsLine "#include" cs)
    (hbad : ∀ name, ¬ Directive.Includes cs name) :
    line w rounds file (some dir) n cs g = (.error (.badInclude n (Text.trim cs)), g) := by
  obtain ⟨hdefine, hundef⟩ := Directive.not_isLine_of_include hinclude
  have hstarts : "#include".toList.isPrefixOf (Text.trim cs) = true := hinclude
  unfold Directive.IsLine at hdefine hundef
  unfold line
  dsimp only
  rw [if_neg hdefine, if_neg hundef, if_pos hstarts]
  rcases hname : Directive.includeName? (Text.trim cs) with - | - | ⟨c, ds⟩
  · rfl
  · rfl
  · exact absurd ⟨hinclude, hname, List.cons_ne_nil c ds⟩ (hbad (c :: ds))

/-- An include line stands for the file that its name stands for. -/
theorem line_of_name (hname : Directive.Includes cs name) :
    line w rounds file (some dir) n cs g =
      (ExceptT.adapt (SourceError.included n)
        (resolve w (some dir) (String.ofList name) >>= file) >>= fun inner =>
        pure (("// Included from: ".toList ++ name) :: block inner ++
          ["// End include: ".toList ++ name]) : Gather _) g := by
  obtain ⟨hinclude, hname, hne⟩ := hname
  obtain ⟨hdefine, hundef⟩ := Directive.not_isLine_of_include hinclude
  have hstarts : "#include".toList.isPrefixOf (Text.trim cs) = true := hinclude
  obtain ⟨c, ds, rfl⟩ := List.exists_cons_of_ne_nil hne
  unfold Directive.IsLine at hdefine hundef
  unfold line
  dsimp only
  rw [if_neg hdefine, if_neg hundef, if_pos hstarts, hname]

theorem line_of_missing (hname : Directive.Includes cs name)
    (hp : w.lookUp g.base dir (String.ofList name) = none) : line w rounds file (some dir) n cs g =
    (.error (.included n (.notFound (String.ofList name))), g) := by
  rw [line_of_name hname]
  refine Step.bind_error ?_
  rw [adapt_apply, Step.bind_error (resolve_none hp)]
  rfl

theorem line_of_include (hname : Directive.Includes cs name)
    (hp : w.lookUp g.base dir (String.ofList name) = some p) :
    line w rounds file (some dir) n cs g =
      (ExceptT.adapt (SourceError.included n) (file p) >>= fun inner =>
        pure (("// Included from: ".toList ++ name) :: block inner ++
          ["// End include: ".toList ++ name]) : Gather _) g := by
  rw [line_of_name hname, Step.bind_apply, Step.bind_apply, adapt_apply, adapt_apply,
    Step.bind_ok (resolve_some hp)]

/-- What a line stands for depends on the macros, of which there are none, and on how the file that
it includes is taken up. -/
theorem line_congr {rounds' : Nat} {file' : String → Gather (List (List Char))}
    (hrounds : 0 < rounds) (hrounds' : 0 < rounds') (hg : g.macros = {})
    (hdefine : ¬ Directive.IsLine "#define" cs) (hfile : ∀ p, file p g = file' p g) :
    line w rounds file (some dir) n cs g = line w rounds' file' (some dir) n cs g := by
  by_cases hinclude : Directive.IsLine "#include" cs
  · by_cases hbad : ∃ name, Directive.Includes cs name
    · obtain ⟨name, hname⟩ := hbad
      cases hp : w.lookUp g.base dir (String.ofList name) with
      | none => rw [line_of_missing hname hp, line_of_missing hname hp]
      | some p =>
        rw [line_of_include hname hp, line_of_include hname hp, Step.bind_apply, Step.bind_apply,
          adapt_apply, adapt_apply, hfile p]
    · rw [line_of_bad hinclude (not_exists.mp hbad), line_of_bad hinclude (not_exists.mp hbad)]
  · rw [line_of_other hrounds hg hdefine hinclude, line_of_other hrounds' hg hdefine hinclude]

/-! ### How the lines of a file end -/

variable {error : SourceError → Gathered → Prop}

/-- An include line ends as the file that it includes. -/
theorem ends_line_of_include {after : Gathered → Prop} (hname : Directive.Includes cs name)
    (hp : w.lookUp g.base dir (String.ofList name) = some p)
    (h : (file p).Ends g (fun _ g' => after g') (fun e g' => error (.included n e) g')) :
    (line w rounds file (some dir) n cs).Ends g (fun _ g' => after g') error := by
  refine Ends.congr (line_of_include hname hp) (Ends.bind ?_)
  exact h.adapt.mono (fun _ _ hafter => ends_of_ok rfl hafter) (fun _ _ he => he)

/-- What holds in front of the first line and is kept by every line holds behind the last one. -/
theorem ends_linesFrom {dir : Option String} (holds : Nat → Gathered → Prop) {ls : List (List Char)}
    (hline : ∀ i cs g, ls[i]? = some cs → holds i g →
      (line w rounds file dir (n + i) cs).Ends g (fun _ g' => holds (i + 1) g') error)
    (done : List (List Char)) (h : holds 0 g) :
    (linesFrom w rounds file dir n done ls).Ends g (fun _ g' => holds ls.length g') error := by
  induction ls generalizing holds n done g with
  | nil => exact ends_of_ok rfl h
  | cons cs ls ih =>
    refine Ends.bind ?_
    refine (hline 0 cs g rfl h).mono ?_ (fun _ _ he => he)
    intro new g' hnew
    refine ih (fun i => holds (i + 1)) ?_ _ hnew
    intro i ds g'' hds hi
    have := hline (i + 1) ds g'' hds hi
    rwa [show n + (i + 1) = n + 1 + i by omega] at this

/-- The lines of a file that is read, while no macro is defined. What is kept by every line that
includes nothing and by every file that is included holds at the end, unless an include line is not
well formed, or its name stands for nothing, or the file that it includes fails. -/
theorem ends_contentWith (hw : w.Undefining) (hrounds : 0 < rounds)
    (hleading : ∀ p, Leading w (file p)) {a : String} {text : List Char}
    (hread : w.tree.read w.cwd a = .ok text) (hg : g.macros = {}) (holds : Nat → Gathered → Prop)
    (hplain : ∀ i g', holds i g' → (∀ b, ¬ w.IncludesAt g.base a i b) → holds (i + 1) g')
    (hbad : ∀ i cs g', holds i g' → (Text.pieces text)[i]? = some cs →
      Directive.IsLine "#include" cs →
      (∀ name, ¬ Directive.Includes cs name) → error (.badInclude (1 + i) (Text.trim cs)) g')
    (hmissing : ∀ i cs name g', holds i g' → (Text.pieces text)[i]? = some cs →
      Directive.Includes cs name →
      w.lookUp g.base (Path.directory a) (String.ofList name) = none →
      error (.included (1 + i) (.notFound (String.ofList name))) g')
    (hfile : ∀ i p g', Gathered.Leads w g g' → holds i g' → w.IncludesAt g.base a i (w.absolute p) →
      (file p).Ends g' (fun _ g'' => holds (i + 1) g'')
      (fun e g'' => error (.included (1 + i) e) g''))
    (h : holds 0 g) :
    (contentWith w rounds file (some (Path.directory a)) text).Ends g
    (fun _ g' => holds (Text.pieces text).length g') error := by
  have hlines : (contentWith w rounds file (some (Path.directory a)) text).Ends g
      (fun _ g' => Gathered.Leads w g g' ∧ holds (Text.pieces text).length g') error := by
    refine ends_linesFrom (fun i g' => Gathered.Leads w g g' ∧ holds i g') ?_ [] ⟨.refl, h⟩
    rintro i cs g' hcs ⟨hleads, hi⟩
    have hline : w.HasLine cs := ⟨a, text, hread, List.mem_of_getElem? hcs⟩
    have hempty := hleads.macros hw hg
    by_cases hinclude : Directive.IsLine "#include" cs
    · by_cases hname : ∃ name, Directive.Includes cs name
      · obtain ⟨name, hname⟩ := hname
        cases hp : w.lookUp g.base (Path.directory a) (String.ofList name) with
        | none =>
          exact ends_of_error (line_of_missing hname (hleads.base ▸ hp))
            (hmissing i cs name g' hi hcs hname hp)
        | some p =>
          refine ends_line_of_include hname (hleads.base ▸ hp) ?_
          have hp := (Files.includesAt_iff hread hcs hname hp).mpr rfl
          refine ((hfile i p g' hleads hi hp).leads (hleading p)).mono ?_ (fun _ _ he => he)
          exact fun _ g'' hg'' => ⟨hleads.trans hg''.1, hg''.2⟩
      · exact ends_of_error (line_of_bad hinclude (not_exists.mp hname))
          (hbad i cs g' hi hcs hinclude (not_exists.mp hname))
    · refine ends_of_ok (line_of_other hrounds hempty (hw cs hline) hinclude) ⟨hleads, ?_⟩
      exact hplain i g' hi fun b => Files.not_includesAt hread hcs hinclude
  exact hlines.mono (fun _ _ hg' => hg'.2) (fun _ _ he => he)

/-- A file that is taken up is neither included already nor missing nor unreadable, or that is how
it fails. -/
theorem ends_fileWith {after : Gathered → Prop}
    (hcircular : w.absolute p ∈ g.included → error (.circular (w.absolute p)) g)
    (hmissing : w.contains (w.absolute p) = false → error (.missing (w.absolute p)) g)
    (hunreadable : ∀ e, w.tree.read w.cwd (w.absolute p) = .error e →
      error (.unreadable (w.absolute p) e) g)
    (hread : ∀ text, w.absolute p ∉ g.included → w.tree.read w.cwd (w.absolute p) = .ok text →
      (contentWith w rounds file (some (Path.directory (w.absolute p))) text).Ends
      (g.take (w.absolute p))
        (fun _ g' => after g') error) :
    (fileWith w rounds file p).Ends g (fun _ g' => after g') error := by
  by_cases hnew : w.absolute p ∈ g.included
  · exact ends_of_error (fileWith_circular hnew) (hcircular hnew)
  cases hr : w.tree.read w.cwd (w.absolute p) with
  | error e =>
    cases hcontains : w.contains (w.absolute p) with
    | false => exact ends_of_error (fileWith_missing hnew hcontains) (hmissing hcontains)
    | true => exact ends_of_error (fileWith_unreadable hnew hcontains hr) (hunreadable e hr)
  | ok text =>
    have hcontent := hread text hnew hr
    have hrun : fileWith w rounds file p g = _ := fileWith_read hnew hr
    exact ⟨fun ls g' hls => hcontent.ok ls g' (hrun ▸ hls), fun e g' he =>
      hcontent.failed e g' (hrun ▸ he)⟩

end Gather

end WordC
