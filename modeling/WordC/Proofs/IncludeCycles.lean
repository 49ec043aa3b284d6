import Mathlib.Data.List.Nodup
import WordC.Proofs.IncludeWalks

/-!
# Including comes to an end

A path is taken up once at most. A file that includes itself through others is never gathered: a
file that is gathered includes nothing endlessly, and the two paths of a file include the same
files.
-/

namespace WordC

/-! ### The two paths of a file -/

/-- Normalised paths that differ in the slashes in front at most. -/
def Path.Alias (a b : String) : Prop :=
  ∃ k m q, IsRoot k ∧ IsRoot m ∧ Named q ∧ a = spelled k q ∧ b = spelled m q

namespace Path

variable {w : Files} {base a b c d : String}

theorem alias_refl (h : IsNormal a) : Alias a a := by
  obtain ⟨k, q, hk, hq, rfl⟩ := h
  exact ⟨k, k, q, hk, hk, hq, rfl, rfl⟩

/-- Slashes in front do not matter to where a path leads. -/
theorem locate?_slashes (w : Files) {k m : Nat} (hk : IsRoot k) (hm : IsRoot m) (p : String) :
    w.tree.locate? w.cwd (slashes k ++ p) = w.tree.locate? w.cwd (slashes m ++ p) := by
  rw [FileTree.locate?_absolute _ _ (isAbsolute_slashes hk.pos p),
    FileTree.locate?_absolute _ _ (isAbsolute_slashes hm.pos p), parts_slashes, parts_slashes,
    FileTree.follow_blank_eq hk.pos hm.pos]

theorem Alias.read (h : Alias a b) {text : List Char} (hread : w.tree.read w.cwd a = .ok text) :
    w.tree.read w.cwd b = .ok text := by
  obtain ⟨k, m, q, hk, hm, -, rfl, rfl⟩ := h
  unfold FileTree.read at hread ⊢
  rw [spelled, locate?_slashes w hm hk]
  split at hread
  · contradiction
  · contradiction
  · next bytes hbytes =>
    rw [spelled] at hbytes
    rw [hbytes]
    exact hread

/-- Files found at the same place are found on paths that differ in the slashes in front at most. -/
theorem alias_of_locate? (ha : IsNormal a) (hb : IsNormal b) {q : Place}
    (hqa : w.tree.locate? w.cwd a = some q)
    (hqb : w.tree.locate? w.cwd b = some q) : Alias a b := by
  obtain ⟨k, q, hk, hq, rfl⟩ := ha
  obtain ⟨m, r, hm, hr, rfl⟩ := hb
  obtain rfl := FileTree.locate?_spelled hk hq hqa
  obtain rfl := FileTree.locate?_spelled hm hr hqb
  exact ⟨k, m, _, hk, hm, hq, rfl, rfl⟩

theorem alias_absolute {k m : Nat} (hk : IsRoot k) (hm : IsRoot m)
    {p : String} (hp : isAbsolute p = false) :
    Alias (w.absolute (slashes k ++ p)) (w.absolute (slashes m ++ p)) :=
  ⟨k, m, _, hk, hm, named_rootedParts p, absolute_slashes _ hk hp, absolute_slashes _ hm hp⟩

theorem Alias.absolute (h : Alias a b) : Alias (w.absolute a) (w.absolute b) := by
  obtain ⟨k, m, q, hk, hm, hq, rfl, rfl⟩ := h
  exact alias_absolute hk hm (isAbsolute_intercalate hq)

/-- A name in a file stands for the same file, whichever of its paths the file was found on. -/
theorem Alias.lookUp (hcwd : isAbsolute w.cwd = true) (h : Alias a b) {name p : String}
    (hp : w.lookUp base (directory a) name = some p) :
    ∃ p', w.lookUp base (directory b) name = some p' ∧ Alias (w.absolute p) (w.absolute p') := by
  obtain ⟨k, m, q, hk, hm, hq, rfl, rfl⟩ := h
  unfold Files.lookUp at hp ⊢
  cases hname : isAbsolute name with
  | true =>
    rw [hname, if_pos rfl] at hp
    rw [if_pos rfl]
    exact ⟨p, hp, alias_refl (isNormal_absolute hcwd p)⟩
  | false =>
    have hfound : w.contains (slashes k ++ below q.dropLast name) =
        w.contains (slashes m ++ below q.dropLast name) := by
      rw [Files.contains, Files.contains, FileTree.contains, FileTree.contains,
        locate?_slashes w hk hm]
    rw [hname, if_neg Bool.false_ne_true, directory_spelled hk.pos hq,
      if_neg (spelled_ne_empty hk q.dropLast), join_spelled hk.pos hq.dropLast hname,
      List.cons_append, List.find?_cons, hfound] at hp
    rw [if_neg Bool.false_ne_true, directory_spelled hm.pos hq,
      if_neg (spelled_ne_empty hm q.dropLast), join_spelled hm.pos hq.dropLast hname,
      List.cons_append, List.find?_cons]
    cases hc : w.contains (slashes m ++ below q.dropLast name) with
    | true =>
      rw [hc] at hp
      obtain rfl := Option.some.inj hp
      exact ⟨_, rfl, (alias_absolute hk hm (isAbsolute_below hq.dropLast hname)).absolute⟩
    | false =>
      rw [hc] at hp
      exact ⟨p, hp, alias_refl (isNormal_absolute hcwd p)⟩

theorem Alias.includes (hcwd : isAbsolute w.cwd = true) (h : Alias a b) (hc : w.Includes base a c) :
    ∃ d, w.Includes base b d ∧ Alias c d := by
  obtain ⟨n, text, cs, name, p, hread, hcs, hname, hp, rfl⟩ := hc
  obtain ⟨p', hp', halias⟩ := h.lookUp hcwd hp
  exact ⟨w.absolute p', ⟨n, text, cs, name, p', h.read hread, hcs, hname, hp', rfl⟩, halias⟩

/-- A file that includes itself, be it on another path, includes files endlessly. -/
theorem not_alias_of_acc (hcwd : isAbsolute w.cwd = true)
    (hacc : Acc (fun b a => w.Includes base a b) c)
    (hcycle : Relation.TransGen (w.Includes base) c d) : ¬ Alias c d := by
  induction hacc generalizing d with
  | intro c _ ih =>
    intro halias
    obtain ⟨x, hx, hxd⟩ := Relation.TransGen.head'_iff.mp hcycle
    obtain ⟨y, hy, hxy⟩ := halias.includes hcwd hx
    exact ih x hx (Relation.TransGen.tail' hxd hy) hxy

end Path

/-! ### Single slashes -/

/-- No path starts with two slashes, neither the one that a file is taken up by nor one that it is
looked for with. -/
structure Files.SingleRooted (w : Files) (base p : String) : Prop where
  cwd : Path.rootSlashes w.cwd ≠ 2
  base : Path.rootSlashes base ≠ 2
  start : Path.rootSlashes p ≠ 2
  names : ∀ cs name, w.HasLine cs → Directive.Includes cs name →
    Path.rootSlashes (String.ofList name) ≠ 2

namespace Files

open WordC.Path

variable {w : Files} {base p a b c : String}

theorem rootSlashes_absolute_ne_two (hcwd : isAbsolute w.cwd = true) (hroot : rootSlashes w.cwd ≠ 2)
    (hp : rootSlashes p ≠ 2) : rootSlashes (w.absolute p) ≠ 2 := by
  rw [Files.absolute, rootSlashes_absolute hcwd]
  exact rootSlashes_join_ne_two hroot hp

theorem rootSlashes_directory (ha : IsNormal a) : rootSlashes (directory a) = rootSlashes a := by
  obtain ⟨k, q, hk, hq, rfl⟩ := ha
  rw [directory_spelled hk.pos hq, rootSlashes_spelled hk hq.dropLast, rootSlashes_spelled hk hq]

/-- Every file that is reached is reached on a normalised path. -/
theorem isNormal_of_reach (hcwd : isAbsolute w.cwd = true)
    (h : Relation.ReflTransGen (w.Includes base) (w.absolute p) c) : IsNormal c := by
  cases h with
  | refl => exact Path.isNormal_absolute hcwd p
  | tail _ hlast =>
    obtain ⟨_, _, _, _, p', _, _, _, _, rfl⟩ := hlast
    exact Path.isNormal_absolute hcwd p'

theorem SingleRooted.includes (hcwd : isAbsolute w.cwd = true) (h : w.SingleRooted base p)
    (ha : IsNormal a) (hroot : rootSlashes a ≠ 2) (hb : w.Includes base a b) :
    rootSlashes b ≠ 2 := by
  obtain ⟨n, text, cs, name, p', hread, hcs, hname, hp', rfl⟩ := hb
  have hline := h.names cs name ⟨a, text, hread, List.mem_of_getElem? hcs⟩ hname
  refine rootSlashes_absolute_ne_two hcwd h.cwd ?_
  unfold lookUp at hp'
  split at hp'
  · rw [← Option.some.inj hp']
    exact hline
  · obtain ⟨x, hx, rfl⟩ := Option.map_eq_some_iff.mp hp'
    refine rootSlashes_absolute_ne_two hcwd h.cwd ?_
    have hdir : rootSlashes (directory a) ≠ 2 := by rwa [rootSlashes_directory ha]
    rcases List.mem_append.mp (List.mem_of_find?_eq_some hx) with hx | hx
    · split at hx
      · exact absurd hx List.not_mem_nil
      · rw [List.mem_singleton.mp hx]
        exact rootSlashes_join_ne_two hdir hline
    · rcases List.mem_cons.mp hx with rfl | hx
      · exact rootSlashes_join_ne_two h.base hline
      · rw [List.mem_singleton.mp hx]
        exact hline

theorem SingleRooted.reach (hcwd : isAbsolute w.cwd = true) (h : w.SingleRooted base p)
    (hc : Relation.ReflTransGen (w.Includes base) (w.absolute p) c) : rootSlashes c ≠ 2 := by
  induction hc with
  | refl => exact rootSlashes_absolute_ne_two hcwd h.cwd h.start
  | tail hreach hlast ih =>
    exact h.includes hcwd (isNormal_of_reach hcwd hreach) ih hlast

/-- Of the paths of a file, only one does not start with two slashes. -/
theorem eq_of_locate?_eq (ha : IsNormal a) (hb : IsNormal b) (hroota : rootSlashes a ≠ 2)
    (hrootb : rootSlashes b ≠ 2) {q : Place} (hqa : w.tree.locate? w.cwd a = some q)
    (hqb : w.tree.locate? w.cwd b = some q) : a = b := by
  obtain ⟨k, m, q, hk, hm, hq, rfl, rfl⟩ := alias_of_locate? ha hb hqa hqb
  rw [rootSlashes_spelled hk hq] at hroota
  rw [rootSlashes_spelled hm hq] at hrootb
  rw [hk.resolve_right hroota, hm.resolve_right hrootb]

theorem acc_of_reach (h : Acc (fun b a => w.Includes base a b) a)
    (hc : Relation.ReflTransGen (w.Includes base) a c) :
    Acc (fun b a => w.Includes base a b) c := by
  induction hc with
  | refl => exact h
  | tail _ hlast ih => exact ih.inv hlast

end Files

/-! ### Files that include each other -/

/-- Two files that include each other, the first on its other path. -/
def loopFiles : Files where
  tree := { entries := [(["a.sc"], .ofText "#include \"b.sc\""),
    (["b.sc"], .ofText "#include \"//a.sc\"")] }
  cwd := "/"

namespace loopFiles

theorem undefining : loopFiles.Undefining := fun _ => Files.not_isLine_of_lines rfl

theorem goes_round : Relation.TransGen (loopFiles.Includes "/") "/a.sc" "//a.sc" := by
  have hfirst : loopFiles.Includes "/" "/a.sc" "/b.sc" :=
    ⟨0, Files.includesAt_iff_includeAt?.mpr rfl⟩
  have hsecond : loopFiles.Includes "/" "/b.sc" "//a.sc" :=
    ⟨0, Files.includesAt_iff_includeAt?.mpr rfl⟩
  exact .tail (.single hfirst) hsecond

end loopFiles

/-! ### How including ends -/

namespace Gather

variable {w : Files} {g : Gathered} {p : String}

/-- The paths that a run takes up: none twice, and none that the file is not reached on. -/
theorem visited_fileAt (hw : w.Undefining) {rounds : Nat} (hrounds : 0 < rounds)
    (depth : Nat) (hg : g.macros = {}) :
    ∃ visited, (fileAt w rounds depth p g).2.included = g.included ++ visited ∧ visited.Nodup ∧
      ∀ a ∈ visited, (∃ text, w.tree.read w.cwd a = .ok text) ∧
        Relation.ReflTransGen (w.Includes g.base) (w.absolute p) a := by
  obtain ⟨visited, heq, hnodup, hvisited⟩ := (leading_fileAt w rounds depth p g).included
  refine ⟨visited, heq, hnodup, ?_⟩
  intro a ha
  obtain ⟨hnew, p', text, -, hread⟩ := hvisited a ha
  refine ⟨⟨text, hread⟩, ?_⟩
  have hmem : a ∈ (fileAt w rounds depth p g).2.included := by
    rw [heq]
    exact List.mem_append_right _ ha
  rcases (reach_fileAt hw hrounds depth p hg).or with ⟨_, -, hreach⟩ | ⟨_, -, hreach⟩
  · exact (hreach a hmem).resolve_left hnew
  · exact (hreach a hmem).resolve_left hnew

/-- A place is met on its two paths at most. -/
theorem length_filter_locate?_le {visited : List String} (hnodup : visited.Nodup)
    (hnormal : ∀ a ∈ visited, Path.IsNormal a) (q : Place) :
    (visited.filter fun a => w.tree.locate? w.cwd a = some q).length ≤ 2 := by
  have hsubset : (visited.filter fun a => w.tree.locate? w.cwd a = some q) ⊆ [Path.spelled 1 q,
        Path.spelled 2 q] := by
    intro a ha
    obtain ⟨ha, hq⟩ := List.mem_filter.mp ha
    rcases FileTree.eq_spelled_of_locate? (hnormal a ha) (of_decide_eq_true hq) with rfl | rfl
    · exact List.mem_cons_self
    · exact List.mem_cons_of_mem _ List.mem_cons_self
  exact (hnodup.filter _).length_le_of_subset hsubset

/-- Without macros, taking a file up comes to an end that neither rounds nor depth have an influence
on: in a text or in an error of the source. No path is taken up twice, so a file twice at most, and
once if no path starts with two slashes. If a file that is reached includes itself through others,
there is no text. -/
theorem including_ends (w : Files) (hcwd : Path.isAbsolute w.cwd = true) (hw : w.Undefining)
    (p : String) (g : Gathered) (hg : g.macros = {}) :
    ∃ result : Except SourceError (List (List Char)) × Gathered,
      (∀ rounds depth, 0 < rounds → Gather.depth w ≤ depth → fileAt w rounds depth p g = result) ∧
      (g = { base := Path.directory (w.absolute p) } → ∀ rounds g', 0 < rounds →
        mainFile w rounds p g' = result) ∧
      ((∃ lines, result.1 = .ok lines) ∨ ∃ e, result.1 = .error e ∧ e.Reported) ∧
      (∃ visited, result.2.included = g.included ++ visited ∧ visited.Nodup ∧
        (∀ q, (visited.filter fun a => w.tree.locate? w.cwd a = some q).length ≤ 2) ∧
        (w.SingleRooted g.base p → (visited.map (w.tree.locate? w.cwd)).Nodup)) ∧
      ∀ c d, Relation.ReflTransGen (w.Includes g.base) (w.absolute p) c →
        Relation.TransGen (w.Includes g.base) c d →
        w.tree.locate? w.cwd d = w.tree.locate? w.cwd c → ∃ e, result.1 = .error e := by
  have hleft := w.length_left_lt_depth g.included
  have hcongr : ∀ rounds depth, 0 < rounds → Gather.depth w ≤ depth →
      fileAt w rounds depth p g = fileAt w 1 (Gather.depth w) p g :=
      fun rounds depth hrounds hdepth =>
    fileAt_congr hcwd hw hrounds Nat.zero_lt_one p hg (Nat.lt_of_lt_of_le hleft hdepth) hleft
  refine ⟨fileAt w 1 (Gather.depth w) p g, hcongr, ?_, ?_, ?_, ?_⟩
  · rintro rfl rounds g' hrounds
    rw [mainFile_apply, hcongr rounds _ hrounds (Nat.le_refl _)]
  · rcases (reported_fileAt hcwd hw Nat.zero_lt_one p hg hleft).or with ⟨lines, hlines, -⟩ | herror
    · exact .inl ⟨lines, hlines⟩
    · exact .inr herror
  · obtain ⟨visited, heq, hnodup, hvisited⟩ := visited_fileAt hw Nat.zero_lt_one (Gather.depth w) hg
    have hnormal : ∀ a ∈ visited, Path.IsNormal a :=
      fun a ha => Files.isNormal_of_reach hcwd (hvisited a ha).2
    refine ⟨visited, heq, hnodup, length_filter_locate?_le hnodup hnormal, ?_⟩
    intro hsingle
    refine hnodup.map_on ?_
    intro a ha b hb hab
    obtain ⟨text, hread⟩ := (hvisited a ha).1
    obtain ⟨q, _, _, hq, -⟩ := exists_place_of_read hread
    exact Files.eq_of_locate?_eq (hnormal a ha) (hnormal b hb)
      (hsingle.reach hcwd (hvisited a ha).2) (hsingle.reach hcwd (hvisited b hb).2) hq (hab ▸ hq)
  · intro c d hreach hcycle hsame
    rcases (acc_fileAt hw Nat.zero_lt_one (Gather.depth w) p hg).or with ⟨_, -, hacc⟩ | ⟨e, he, -⟩
    · -- a text would mean that the file that is reached includes nothing endlessly
      obtain ⟨x, ⟨n, text, _, _, _, hread, -⟩, -⟩ := Relation.TransGen.head'_iff.mp hcycle
      obtain ⟨q, _, _, hq, -⟩ := exists_place_of_read hread
      have hnormal := Files.isNormal_of_reach hcwd hreach
      have hnormal' := Files.isNormal_of_reach hcwd (hreach.trans hcycle.to_reflTransGen)
      have halias := Path.alias_of_locate? hnormal hnormal' hq (hsame.trans hq)
      exact absurd halias (Path.not_alias_of_acc hcwd (Files.acc_of_reach hacc hreach) hcycle)
    · exact ⟨e, he⟩

/-- Files that include each other, on different paths, are not gathered. -/
theorem loopFiles_not_gathered : loopFiles.Undefining ∧
    ∃ e, (mainFile loopFiles 1 "a.sc" { base := "" }).1 = .error e ∧ e.Reported := by
  refine ⟨loopFiles.undefining, ?_⟩
  obtain ⟨result, -, hmain, hends, -, hcycle⟩ :=
    including_ends loopFiles rfl loopFiles.undefining "a.sc" { base := "/" } rfl
  rw [hmain rfl 1 _ Nat.zero_lt_one]
  obtain ⟨e, he⟩ := hcycle "/a.sc" "//a.sc" .refl loopFiles.goes_round rfl
  rcases hends with ⟨lines, hlines⟩ | herror
  · cases he.symm.trans hlines
  · exact herror

/-- A file is taken up on both of its paths. -/
theorem twoPaths_taken_up_twice : twoPaths.Undefining ∧
    (∃ lines, (mainFile twoPaths 1 "main.sc" { base := "" }).1 = .ok lines) ∧
    "/a.sc" ∈ (mainFile twoPaths 1 "main.sc" { base := "" }).2.included ∧
    "//a.sc" ∈ (mainFile twoPaths 1 "main.sc" { base := "" }).2.included ∧
    twoPaths.tree.locate? twoPaths.cwd "/a.sc" = some ["a.sc"] ∧
    twoPaths.tree.locate? twoPaths.cwd "//a.sc" = some ["a.sc"] := by
  have hends : (mainFile twoPaths 1 "main.sc").Ends { base := "" } _ _ :=
    walked_mainFile rfl twoPaths.undefining Nat.zero_lt_one "main.sc" rfl twoPaths.resolved
  rcases hends.or with ⟨lines, hlines, hmem, -⟩ | ⟨e, -, c, ns, ms, -, hns, hms, hlt⟩
  · refine ⟨twoPaths.undefining, ⟨lines, hlines⟩, (hmem _).mpr ⟨[0], ?_⟩,
      (hmem _).mpr ⟨[1], ?_⟩, rfl, rfl⟩
    · exact .step (Files.includesAt_iff_includeAt?.mpr (twoPaths.includeAt?_main 0)) (.here _)
    · exact .step (Files.includesAt_iff_includeAt?.mpr (twoPaths.includeAt?_main 1)) (.here _)
  · rw [twoPaths.walks_unique hns hms] at hlt
    exact absurd hlt (List.lt_irrefl ms)

end Gather

end WordC
