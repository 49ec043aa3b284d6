import WordC.Proofs.IncludeRelation

/-!
# How deep includes go

A file is taken up only while its path is not among those included, and a file has two normalised
paths: so the paths that are left bound how deep includes go, whatever includes what. Only files
that are reached are taken up, and a run that gathers a file has gathered all that it includes.
-/

namespace WordC

/-- An error of the source, and not that a run was given too few rounds or too little depth. -/
def SourceError.Reported : SourceError → Prop
  | included _ e => e.Reported
  | unsettled => False
  | tooDeep => False
  | _ => True

/-! ### The paths that are left -/

namespace Files

variable {w : Files}

/-- The two paths of every entry. -/
def paths (w : Files) : List String :=
  w.tree.entries.flatMap fun e => [Path.spelled 1 e.1, Path.spelled 2 e.1]

theorem length_paths (w : Files) : w.paths.length = 2 * w.tree.entries.length := by
  rw [paths]
  induction w.tree.entries with
  | nil => rfl
  | cons e es ih =>
    simp only [List.flatMap_cons, List.length_append, ih, List.length_cons, List.length_nil]
    omega

theorem mem_entries_of_read {a : String} {text : List Char} (h : w.tree.read w.cwd a = .ok text) :
    ∃ q bytes cs, w.tree.locate? w.cwd a = some q ∧ (q, FileEntry.file bytes) ∈ w.tree.entries ∧
    Text.decode bytes = .ok cs ∧
      text = Text.lineFeeds cs := by
  obtain ⟨q, bytes, cs, hq, hentry, hcs, htext⟩ := Gather.exists_place_of_read h
  refine ⟨q, bytes, cs, hq, ?_, hcs, htext⟩
  unfold FileTree.entry? at hentry
  split at hentry
  · next e he =>
    obtain rfl := Option.some.inj hentry
    obtain ⟨front, back, heq, -⟩ := List.lookup_eq_some_iff.mp he
    rw [heq]
    exact List.mem_append_right front List.mem_cons_self
  · split at hentry <;> cases hentry

theorem mem_paths_of_read (hcwd : Path.isAbsolute w.cwd = true) {p : String} {text : List Char}
    (h : w.tree.read w.cwd (w.absolute p) = .ok text) : w.absolute p ∈ w.paths := by
  obtain ⟨q, _, _, hq, hentry, -⟩ := mem_entries_of_read h
  refine List.mem_flatMap.mpr ⟨_, hentry, ?_⟩
  have hnormal : Path.IsNormal (w.absolute p) := Path.isNormal_absolute hcwd p
  rcases FileTree.eq_spelled_of_locate? hnormal hq with ha | ha
  · rw [ha]
    exact List.mem_cons_self
  · rw [ha]
    exact List.mem_cons_of_mem _ List.mem_cons_self

/-- The lines of an entry. -/
def linesOf : FileEntry → List (List Char)
  | .directory => []
  | .file bytes =>
    match Text.decode bytes with
    | .ok cs => Text.pieces (Text.lineFeeds cs)
    | .error _ => []

/-- The lines of all files. -/
def lines (w : Files) : List (List Char) := w.tree.entries.flatMap fun e => linesOf e.2

theorem mem_lines_of_hasLine {cs : List Char} (h : w.HasLine cs) : cs ∈ w.lines := by
  obtain ⟨a, text, hread, hcs⟩ := h
  obtain ⟨q, bytes, ds, -, hentry, hds, rfl⟩ := mem_entries_of_read hread
  refine List.mem_flatMap.mpr ⟨_, hentry, ?_⟩
  rw [linesOf, hds]
  exact hcs

/-- A directive that no line has. -/
theorem not_isLine_of_lines {word : String}
    (h : (w.lines.all fun cs => !word.toList.isPrefixOf (Text.trim cs)) = true) {cs : List Char}
    (hcs : w.HasLine cs) : ¬ Directive.IsLine word cs := by
  have hline := List.all_eq_true.mp h cs (mem_lines_of_hasLine hcs)
  rw [Bool.not_eq_true'] at hline
  rw [Directive.IsLine, hline]
  exact Bool.false_ne_true

/-- The paths that are not yet included. -/
def left (w : Files) (included : List String) : List String := w.paths.filter (· ∉ included)

theorem left_append (included visited : List String) :
    w.left (included ++ visited) = (w.left included).filter (· ∉ visited) := by
  rw [left, left, List.filter_filter]
  refine List.filter_congr fun a _ => ?_
  simp [Bool.and_comm]

theorem length_left_le_of_leads {g g' : Gathered} (h : Gathered.Leads w g g') :
    (w.left g'.included).length ≤ (w.left g.included).length := by
  obtain ⟨visited, heq, -⟩ := h.included
  rw [heq, left_append]
  exact List.length_filter_le _ _

theorem length_left_lt_of_read (hcwd : Path.isAbsolute w.cwd = true) {p : String} {g : Gathered}
    {text : List Char} (hnew : w.absolute p ∉ g.included)
    (hread : w.tree.read w.cwd (w.absolute p) = .ok text) :
    (w.left (g.take (w.absolute p)).included).length < (w.left g.included).length := by
  rw [Gathered.take, left_append, List.length_filter_lt_length_iff_exists]
  refine ⟨w.absolute p, ?_, by simp⟩
  exact List.mem_filter.mpr ⟨mem_paths_of_read hcwd hread, decide_eq_true hnew⟩

theorem length_left_lt_depth (w : Files) (included : List String) :
    (w.left included).length < Gather.depth w := by
  have hle : (w.left included).length ≤ w.paths.length := List.length_filter_le _ _
  rw [length_paths] at hle
  exact Nat.lt_succ_of_le hle

end Files

/-! ### Depth and rounds do not matter -/

namespace Gather

variable {w : Files} {rounds rounds' : Nat} {g : Gathered}

theorem linesFrom_congr {file file' : String → Gather (List (List Char))} {dir : String}
    {ls : List (List Char)} (hw : w.Undefining) (hrounds : 0 < rounds) (hrounds' : 0 < rounds')
    (hleading : ∀ p, Leading w (file p)) (hls : ∀ cs ∈ ls, w.HasLine cs) (hg : g.macros = {})
    (hfile : ∀ g', Gathered.Leads w g g' → ∀ p, file p g' = file' p g') (n : Nat)
    (done : List (List Char)) : linesFrom w rounds file (some dir) n done ls g =
    linesFrom w rounds' file' (some dir) n done ls g := by
  induction ls generalizing g n done with
  | nil => rfl
  | cons cs ls ih =>
    have hcs := hls cs List.mem_cons_self
    have hline : line w rounds file (some dir) n cs g = line w rounds' file' (some dir) n cs g :=
      line_congr hrounds hrounds' hg (hw cs hcs) (hfile g .refl)
    have hleads := leading_line rounds hleading (some dir) n hcs g
    rw [linesFrom, linesFrom, Step.bind_apply, Step.bind_apply, ← hline]
    rcases hrun : line w rounds file (some dir) n cs g with ⟨e | new, g'⟩
    · rfl
    · rw [hrun] at hleads
      refine ih (fun ds hds => hls ds (List.mem_cons_of_mem cs hds))
        (hleads.macros hw hg) ?_ (n + 1) _
      exact fun g'' hg'' => hfile g'' (hleads.trans hg'')

/-- Once it exceeds the number of paths that are left, the depth has no influence on a run. -/
theorem fileAt_congr (hcwd : Path.isAbsolute w.cwd = true) (hw : w.Undefining)
    (hrounds : 0 < rounds) (hrounds' : 0 < rounds') {depth depth' : Nat} (p : String)
    (hg : g.macros = {}) (hdepth : (w.left g.included).length < depth)
    (hdepth' : (w.left g.included).length < depth') :
    fileAt w rounds depth p g = fileAt w rounds' depth' p g := by
  induction depth generalizing depth' p g with
  | zero => exact absurd hdepth (Nat.not_lt_zero _)
  | succ depth ih =>
    obtain ⟨depth', rfl⟩ := Nat.exists_eq_succ_of_ne_zero (Nat.ne_of_gt (Nat.zero_lt_of_lt hdepth'))
    rw [fileAt_succ, fileAt_succ]
    by_cases hnew : w.absolute p ∈ g.included
    · rw [fileWith_circular hnew, fileWith_circular hnew]
    cases hread : w.tree.read w.cwd (w.absolute p) with
    | error e =>
      cases hcontains : w.contains (w.absolute p) with
      | false => rw [fileWith_missing hnew hcontains, fileWith_missing hnew hcontains]
      | true =>
        rw [fileWith_unreadable hnew hcontains hread, fileWith_unreadable hnew hcontains hread]
    | ok text =>
      rw [fileWith_read hnew hread, fileWith_read hnew hread]
      have hless := Files.length_left_lt_of_read hcwd hnew hread
      refine linesFrom_congr hw hrounds hrounds' (leading_fileAt w rounds depth) ?_
        ((g.take_macros _).trans hg) ?_ 1 []
      · exact fun cs hcs => ⟨_, text, hread, hcs⟩
      · intro g' hleads q
        have hle := Files.length_left_le_of_leads hleads
        refine ih q (hleads.macros hw hg) ?_ ?_
        · exact Nat.lt_of_le_of_lt hle (by omega)
        · exact Nat.lt_of_le_of_lt hle (by omega)

/-- A run that is given depth for the paths that are left does not use it up. -/
theorem reported_fileAt (hcwd : Path.isAbsolute w.cwd = true) (hw : w.Undefining)
    (hrounds : 0 < rounds) {depth : Nat} (p : String) (hg : g.macros = {})
    (hdepth : (w.left g.included).length < depth) :
    (fileAt w rounds depth p).Ends g (fun _ _ => True) (fun e _ => e.Reported) := by
  induction depth generalizing p g with
  | zero => exact absurd hdepth (Nat.not_lt_zero _)
  | succ depth ih =>
    refine ends_fileWith (fun _ => trivial) (fun _ => trivial) (fun _ _ => trivial) ?_
    intro text hnew hread
    have hless := Files.length_left_lt_of_read hcwd hnew hread
    refine ends_contentWith hw hrounds (leading_fileAt w rounds depth) hread
      ((g.take_macros _).trans hg) (fun _ _ => True) ?_ ?_ ?_ ?_ trivial
    · exact fun _ _ _ _ => trivial
    · exact fun _ _ _ _ _ _ _ => trivial
    · exact fun _ _ _ _ _ _ _ _ => trivial
    · intro i q g' hleads _ _
      have hle := Files.length_left_le_of_leads hleads
      exact ih q (hleads.macros hw hg) (Nat.lt_of_le_of_lt hle (by omega))

/-! ### What is reached -/

/-- Only files that are reached from a file are taken up with it. -/
theorem reach_fileAt (hw : w.Undefining) (hrounds : 0 < rounds) (depth : Nat) (p : String)
    (hg : g.macros = {}) : (fileAt w rounds depth p).Ends g
      (fun _ g' => ∀ c ∈ g'.included, c ∈ g.included ∨
        Relation.ReflTransGen (w.Includes g.base) (w.absolute p) c)
      (fun _ g' => ∀ c ∈ g'.included, c ∈ g.included ∨
        Relation.ReflTransGen (w.Includes g.base) (w.absolute p) c) := by
  induction depth generalizing p g with
  | zero => exact ends_of_error rfl fun c hc => .inl hc
  | succ depth ih =>
    refine ends_fileWith (fun _ c hc => .inl hc) (fun _ c hc => .inl hc)
      (fun _ _ c hc => .inl hc) ?_
    intro text hnew hread
    refine ends_contentWith hw hrounds (leading_fileAt w rounds depth) hread
      ((g.take_macros _).trans hg) (fun _ g' => ∀ c ∈ g'.included, c ∈ g.included ∨
      Relation.ReflTransGen (w.Includes g.base) (w.absolute p) c) ?_ ?_ ?_ ?_ ?_
    · exact fun _ _ hi _ => hi
    · exact fun _ _ _ hi _ _ _ => hi
    · exact fun _ _ _ _ hi _ _ _ => hi
    · intro i q g' hleads hi hq
      have hreach : ∀ g'' : Gathered,
          (∀ c ∈ g''.included, c ∈ g'.included ∨
          Relation.ReflTransGen (w.Includes g'.base) (w.absolute q) c) →
          ∀ c ∈ g''.included, c ∈ g.included ∨
          Relation.ReflTransGen (w.Includes g.base) (w.absolute p) c := by
        intro g'' hg'' c hc
        rcases hg'' c hc with hc | hc
        · exact hi c hc
        · rw [hleads.base] at hc
          exact .inr (hc.head ⟨i, hq⟩)
      exact (ih q (hleads.macros hw hg)).mono (fun _ => hreach) (fun _ => hreach)
    · intro c hc
      rcases Gathered.mem_take.mp hc with hc | rfl
      · exact .inl hc
      · exact .inr .refl

/-- A file that is gathered includes nothing endlessly. -/
theorem acc_fileAt (hw : w.Undefining) (hrounds : 0 < rounds) (depth : Nat) (p : String)
    (hg : g.macros = {}) : (fileAt w rounds depth p).Ends g (fun _ _ =>
      Acc (fun b a => w.Includes g.base a b) (w.absolute p)) (fun _ _ => True) := by
  induction depth generalizing p g with
  | zero => exact ends_of_error rfl trivial
  | succ depth ih =>
    refine ends_fileWith (fun _ => trivial) (fun _ => trivial) (fun _ _ => trivial) ?_
    intro text hnew hread
    have hlines : (contentWith w rounds (fileAt w rounds depth)
        (some (Path.directory (w.absolute p))) text).Ends
        (g.take (w.absolute p))
        (fun _ _ => ∀ n < (Text.pieces text).length, ∀ b, w.IncludesAt g.base (w.absolute p) n b →
          Acc (fun b a => w.Includes g.base a b) b) (fun _ _ => True) := by
      refine ends_contentWith hw hrounds (leading_fileAt w rounds depth) hread
        ((g.take_macros _).trans hg) (fun i _ => ∀ n < i, ∀ b, w.IncludesAt g.base
        (w.absolute p) n b → Acc (fun b a => w.Includes g.base a b) b) ?_ ?_ ?_ ?_ ?_
      · intro i _ hi hnot n hn b hb
        rcases Nat.lt_succ_iff_lt_or_eq.mp hn with hn | rfl
        · exact hi n hn b hb
        · exact absurd hb (hnot b)
      · exact fun _ _ _ _ _ _ _ => trivial
      · exact fun _ _ _ _ _ _ _ _ => trivial
      · intro i q g' hleads hi hq
        refine (ih q (hleads.macros hw hg)).mono ?_ (fun _ _ _ => trivial)
        intro _ _ hacc n hn b hb
        rw [hleads.base] at hacc
        rcases Nat.lt_succ_iff_lt_or_eq.mp hn with hn | rfl
        · exact hi n hn b hb
        · rw [← hq.unique hb]
          exact hacc
      · exact fun n hn => absurd hn (Nat.not_lt_zero n)
    refine hlines.mono ?_ (fun _ _ _ => trivial)
    intro _ _ hall
    refine Acc.intro _ ?_
    rintro b ⟨n, hb⟩
    exact hall n (hb.lt hread) b hb

end Gather

end WordC
