import WordC.Files.Tree

/-!
# Normalised paths and places

A normalised absolute path is one slash or two and the names of a place between slashes, and
following it leads to that place or nowhere. So a place has two such paths at most. They differ in
the slashes in front only, and so do the paths that a relative name has below their directories.
-/

namespace WordC.Path

/-! ### Parts -/

theorem toList_slash : ("/" : String).toList = ['/'] := rfl

theorem parts_append (p q : String) : parts (p ++ "/" ++ q) = parts p ++ parts q := by
  rw [parts, String.toList_append, String.toList_append, toList_slash, List.append_assoc,
    List.cons_append, List.nil_append, List.splitOn_append_cons_self, List.map_append]
  rfl

theorem parts_empty : parts "" = [""] := rfl

theorem slashes_zero_append (p : String) : slashes 0 ++ p = p := String.empty_append

theorem slashes_succ_append (k : Nat) (p : String) :
    slashes (k + 1) ++ p = "" ++ "/" ++ (slashes k ++ p) := by
  rw [← String.toList_inj]
  simp [slashes, List.replicate_succ]

theorem parts_slashes (k : Nat) (p : String) :
    parts (slashes k ++ p) = List.replicate k "" ++ parts p := by
  induction k with
  | zero => rw [slashes_zero_append]; rfl
  | succ k ih => rw [slashes_succ_append, parts_append, parts_empty, ih, List.replicate_succ]; rfl

theorem not_mem_of_mem_splitOn {a : Char} {xs l : List Char} (h : l ∈ xs.splitOn a) : a ∉ l := by
  induction xs generalizing l with
  | nil =>
    rw [List.splitOn_nil, List.mem_singleton] at h
    rw [h]
    exact List.not_mem_nil
  | cons x xs ih =>
    rw [List.splitOn_cons_eq_if_modifyHead] at h
    split at h
    · rcases List.mem_cons.mp h with rfl | h
      · exact List.not_mem_nil
      · exact ih h
    · next hx =>
      obtain ⟨first, rest, heq⟩ := List.exists_cons_of_ne_nil (List.splitOn_ne_nil a xs)
      rw [heq, List.modifyHead_cons] at h
      rcases List.mem_cons.mp h with rfl | h
      · intro hmem
        rcases List.mem_cons.mp hmem with rfl | hmem
        · exact hx (beq_self_eq_true a)
        · exact ih (heq ▸ List.mem_cons_self) hmem
      · exact ih (heq ▸ List.mem_cons_of_mem first h)

variable {p dir x : String} {q : Place} {k : Nat}

theorem no_slash_of_mem_parts (h : x ∈ parts p) : '/' ∉ x.toList := by
  obtain ⟨l, hl, rfl⟩ := List.mem_map.mp h
  rw [String.toList_ofList]
  exact not_mem_of_mem_splitOn hl

/-! ### Names -/

/-- A part that names something below a directory. -/
structure IsName (x : String) : Prop where
  ne_empty : x ≠ ""
  ne_dot : x ≠ "."
  ne_dots : x ≠ ".."
  no_slash : '/' ∉ x.toList

/-- A place that is made of names. -/
def Named (q : Place) : Prop := ∀ x ∈ q, IsName x

theorem named_nil : Named [] := fun _ hx => absurd hx List.not_mem_nil

theorem Named.dropLast (hq : Named q) : Named q.dropLast := fun x hx => hq x (q.dropLast_subset hx)

theorem parts_intercalate (hq : Named q) (hne : q ≠ []) : parts ("/".intercalate q) = q := by
  have hsplit : (['/'].intercalate (q.map String.toList)).splitOn '/' = q.map String.toList := by
    refine List.splitOn_intercalate '/' ?_ (by simpa using hne)
    intro l hl
    obtain ⟨x, hx, rfl⟩ := List.mem_map.mp hl
    exact (hq x hx).no_slash
  rw [parts, String.toList_intercalate, toList_slash, hsplit, List.map_map]
  simp

theorem named_pushPart {stack : List String} (h : Named stack) {part : String}
    (hpart : '/' ∉ part.toList) : Named (pushPart true stack part) := by
  unfold pushPart
  split
  · exact h
  · next hblank =>
    rw [not_or] at hblank
    split
    · next hdots =>
      intro x hx
      rcases List.mem_cons.mp hx with rfl | hx
      · exact ⟨hblank.1, hblank.2, hdots, hpart⟩
      · exact h x hx
    · cases stack with
      | nil => exact h
      | cons top rest =>
        show Named (if top = ".." then part :: top :: rest else rest)
        rw [if_neg (h top List.mem_cons_self).ne_dots]
        exact fun x hx => h x (List.mem_cons_of_mem top hx)

theorem named_foldl_pushPart {ps stack : List String} (h : Named stack)
    (hps : ∀ x ∈ ps, '/' ∉ x.toList) : Named (ps.foldl (pushPart true) stack) := by
  induction ps generalizing stack with
  | nil => exact h
  | cons part ps ih =>
    rw [List.foldl_cons]
    exact ih (named_pushPart h (hps part List.mem_cons_self)) fun x hx =>
      hps x (List.mem_cons_of_mem part hx)

/-- Empty parts in front change nothing. -/
theorem foldl_pushPart_blank (k : Nat) (ps : List String) :
    (List.replicate k "" ++ ps).foldl (pushPart true) [] = ps.foldl (pushPart true) [] := by
  induction k with
  | zero => rfl
  | succ k ih =>
    rw [List.replicate_succ, List.cons_append, List.foldl_cons,
      show pushPart true [] "" = [] from rfl, ih]

/-! ### Slashes in front -/

/-- How many slashes a normalised absolute path starts with. -/
def IsRoot (k : Nat) : Prop := k = 1 ∨ k = 2

theorem IsRoot.pos (hk : IsRoot k) : 0 < k := by
  rcases hk with rfl | rfl <;> decide

theorem isAbsolute_iff : isAbsolute p = true ↔ ∃ cs, p.toList = '/' :: cs := by
  rw [isAbsolute, beq_iff_eq, List.head?_eq_some_iff]

theorem isRoot_rootSlashes (h : isAbsolute p = true) : IsRoot (rootSlashes p) := by
  obtain ⟨cs, hcs⟩ := isAbsolute_iff.mp h
  unfold rootSlashes
  rw [hcs]
  split
  · exact .inl rfl
  · exact .inr rfl
  · exact .inl rfl
  · next hnot => exact absurd rfl (hnot cs)

/-- A relative path does not start with a slash. -/
theorem head_of_relative (h : isAbsolute p = false) (cs : List Char) : p.toList ≠ '/' :: cs := by
  intro hp
  rw [isAbsolute_iff.mpr ⟨cs, hp⟩] at h
  contradiction

theorem rootSlashes_slashes (hk : IsRoot k) (hp : isAbsolute p = false) :
    rootSlashes (slashes k ++ p) = k := by
  have hhead := head_of_relative hp
  unfold rootSlashes
  rw [String.toList_append, slashes, String.toList_ofList]
  rcases hk with rfl | rfl
  · rw [List.replicate_one, List.cons_append, List.nil_append]
    split
    · next heq => exact absurd (List.cons.inj heq).2 (hhead _)
    · next heq => exact absurd (List.cons.inj heq).2 (hhead _)
    · rfl
    · next hnot => exact absurd rfl (hnot _)
  · rw [show List.replicate 2 '/' = ['/', '/'] from rfl, List.cons_append, List.cons_append,
      List.nil_append]
    split
    · next heq => exact absurd (List.cons.inj (List.cons.inj heq).2).2 (hhead _)
    · rfl
    · next hnot heq => exact absurd (List.cons.inj heq).2.symm (hnot _)
    · next hnot => exact absurd rfl (hnot _)

theorem isAbsolute_slashes (hk : 0 < k) (p : String) : isAbsolute (slashes k ++ p) = true := by
  obtain ⟨k, rfl⟩ := Nat.exists_eq_succ_of_ne_zero (Nat.ne_of_gt hk)
  refine isAbsolute_iff.mpr ⟨List.replicate k '/' ++ p.toList, ?_⟩
  rw [String.toList_append, slashes, String.toList_ofList, List.replicate_succ, List.cons_append]

theorem join_absolute (hp : isAbsolute p = true) : join dir p = p := by
  rw [join, if_pos hp]

theorem isAbsolute_join (hdir : isAbsolute dir = true) (p : String) :
    isAbsolute (join dir p) = true := by
  obtain ⟨cs, hcs⟩ := isAbsolute_iff.mp hdir
  unfold join
  split
  · assumption
  split
  · exact isAbsolute_iff.mpr ⟨cs ++ p.toList, by rw [String.toList_append, hcs, List.cons_append]⟩
  · refine isAbsolute_iff.mpr ⟨cs ++ '/' :: p.toList, ?_⟩
    rw [String.toList_append, String.toList_append, hcs, toList_slash, List.append_assoc]
    rfl

/-! ### The paths of a place -/

/-- A place behind slashes. -/
def spelled (k : Nat) (q : Place) : String := slashes k ++ "/".intercalate q

theorem spelled_nil (k : Nat) : spelled k [] = slashes k ++ "" := by
  rw [spelled, String.intercalate_nil]

theorem isAbsolute_intercalate (hq : Named q) : isAbsolute ("/".intercalate q) = false := by
  cases q with
  | nil => rfl
  | cons x q =>
    rw [← Bool.not_eq_true, isAbsolute_iff]
    rintro ⟨cs, hcs⟩
    have hx := hq x List.mem_cons_self
    obtain ⟨c, ds, hcds⟩ := List.exists_cons_of_ne_nil (fun h =>
      hx.ne_empty (String.toList_eq_nil_iff.mp h) : x.toList ≠ [])
    have hhead : c = '/' := by
      cases q with
      | nil =>
        rw [String.intercalate_singleton, hcds] at hcs
        exact (List.cons.inj hcs).1
      | cons y q =>
        rw [String.intercalate_cons_cons, String.toList_append, String.toList_append, hcds,
          List.append_assoc, List.cons_append] at hcs
        exact (List.cons.inj hcs).1
    exact hx.no_slash (by rw [hcds, hhead]; exact List.mem_cons_self)

theorem rootSlashes_spelled (hk : IsRoot k) (hq : Named q) : rootSlashes (spelled k q) = k :=
  rootSlashes_slashes hk (isAbsolute_intercalate hq)

theorem isAbsolute_spelled (hk : IsRoot k) (q : Place) : isAbsolute (spelled k q) = true :=
  isAbsolute_slashes hk.pos _

theorem spelled_ne_empty (hk : IsRoot k) (q : Place) : spelled k q ≠ "" := by
  intro hempty
  have habs := isAbsolute_spelled hk q
  rw [hempty] at habs
  contradiction

theorem named_normalParts (h : isAbsolute p = true) : Named (normalParts p) := by
  have hrooted : decide (rootSlashes p ≠ 0) = true :=
    decide_eq_true (Nat.ne_of_gt (isRoot_rootSlashes h).pos)
  rw [normalParts, hrooted]
  intro x hx
  exact named_foldl_pushPart named_nil (fun y hy => no_slash_of_mem_parts hy) x
    (List.mem_reverse.mp hx)

theorem normalize_eq (h : isAbsolute p = true) :
    normalize p = spelled (rootSlashes p) (normalParts p) := by
  show (if spelled (rootSlashes p) (normalParts p) = "" then "." else spelled (rootSlashes p)
    (normalParts p)) = _
  rw [if_neg (spelled_ne_empty (isRoot_rootSlashes h) (normalParts p))]

/-- A path that nothing is left to normalise in. -/
def IsNormal (a : String) : Prop := ∃ k q, IsRoot k ∧ Named q ∧ a = spelled k q

theorem isNormal_absolute {cwd : String} (hcwd : isAbsolute cwd = true) (p : String) :
    IsNormal (absolute cwd p) := by
  have hjoin := isAbsolute_join hcwd p
  exact ⟨_, _, isRoot_rootSlashes hjoin, named_normalParts hjoin, normalize_eq hjoin⟩

/-! ### Below a directory -/

theorem concat_intercalate (hq : Named q) (hne : q ≠ []) :
    ∃ cs c, ("/".intercalate q).toList = cs ++ [c] ∧ c ≠ '/' := by
  induction q with
  | nil => contradiction
  | cons x q ih =>
    cases q with
    | nil =>
      have hx := hq x List.mem_cons_self
      rw [String.intercalate_singleton]
      rcases List.eq_nil_or_concat x.toList with hnil | ⟨cs, c, hcs⟩
      · exact absurd (String.toList_eq_nil_iff.mp hnil) hx.ne_empty
      · rw [List.concat_eq_append] at hcs
        refine ⟨cs, c, hcs, ?_⟩
        rintro rfl
        exact hx.no_slash (by rw [hcs]; exact List.mem_append_right cs List.mem_cons_self)
    | cons y q =>
      obtain ⟨cs, c, hcs, hc⟩ :=
        ih (fun z hz => hq z (List.mem_cons_of_mem x hz)) (List.cons_ne_nil y q)
      refine ⟨(x ++ "/").toList ++ cs, c, ?_, hc⟩
      rw [String.intercalate_cons_cons, String.toList_append, hcs, List.append_assoc]

/-- The text up to the last slash. -/
theorem splitLast_fst {front : List Char} (hp : p.toList = front ++ '/' :: x.toList)
    (hx : '/' ∉ x.toList) : (splitLast p).1 = front ++ ['/'] := by
  have hpass : ∀ c ∈ x.toList.reverse, (c != '/') = true := by
    intro c hc
    rw [bne_iff_ne]
    rintro rfl
    exact hx (List.mem_reverse.mp hc)
  rw [splitLast, hp]
  simp [List.dropWhile_append_of_pos hpass]

theorem directory_slashes (hx : '/' ∉ x.toList) :
    directory (slashes (k + 1) ++ x) = slashes (k + 1) := by
  have hp : (slashes (k + 1) ++ x).toList = List.replicate k '/' ++ '/' :: x.toList := by
    rw [String.toList_append, slashes, String.toList_ofList, List.replicate_succ',
      List.append_assoc]
    rfl
  have hall : (List.replicate k '/' ++ ['/']).all (· == '/') = true := by simp
  rw [directory, splitLast_fst hp hx, if_pos hall, slashes, List.replicate_succ']

theorem directory_spelled (hk : 0 < k) (hq : Named q) :
    directory (spelled k q) = spelled k q.dropLast := by
  obtain ⟨m, rfl⟩ := Nat.exists_eq_succ_of_ne_zero (Nat.ne_of_gt hk)
  rcases List.eq_nil_or_concat q with rfl | ⟨d, x, rfl⟩
  · rw [List.dropLast_nil, spelled_nil, directory_slashes List.not_mem_nil, String.append_empty]
  rw [List.concat_eq_append] at hq ⊢
  have hx : '/' ∉ x.toList := (hq x (List.mem_append_right d List.mem_cons_self)).no_slash
  rw [List.dropLast_concat]
  by_cases hd : d = []
  · rw [hd, List.nil_append, spelled, String.intercalate_singleton, directory_slashes hx,
      spelled_nil, String.append_empty]
  · have hdn : Named d := fun y hy => hq y (List.mem_append_left [x] hy)
    obtain ⟨cs, c, hcs, hc⟩ := concat_intercalate hdn hd
    have hp : (spelled (m + 1) (d ++ [x])).toList =
        (spelled (m + 1) d).toList ++ '/' :: x.toList := by
      rw [spelled, String.intercalate_append_of_ne_nil hd (List.cons_ne_nil x []),
        String.intercalate_singleton]
      simp [spelled]
    have hlast : (spelled (m + 1) d).toList = (List.replicate (m + 1) '/' ++ cs) ++ [c] := by
      rw [spelled, String.toList_append, slashes, String.toList_ofList, hcs, List.append_assoc]
    have hall : ((spelled (m + 1) d).toList ++ ['/']).all (· == '/') = false := by
      rw [hlast]
      simp [hc]
    rw [directory, splitLast_fst hp hx, hall, if_neg Bool.false_ne_true, ← String.toList_inj,
      String.toList_ofList, hlast]
    simp [hc]

/-- What a relative name is called below a directory, without the slashes in front. -/
def below (d : Place) (name : String) : String :=
  if d = [] then name else "/".intercalate d ++ "/" ++ name

theorem isAbsolute_below {d : Place} (hd : Named d) {name : String}
    (hname : isAbsolute name = false) : isAbsolute (below d name) = false := by
  unfold below
  split
  · exact hname
  · next hne =>
    obtain ⟨cs, c, hcs, -⟩ := concat_intercalate hd hne
    have hrelative := isAbsolute_intercalate hd
    rw [isAbsolute, hcs] at hrelative
    rw [isAbsolute, String.toList_append, String.toList_append, hcs]
    cases cs with
    | nil => exact hrelative
    | cons e es => exact hrelative

theorem join_spelled (hk : 0 < k) {d : Place} (hd : Named d) {name : String}
    (hname : isAbsolute name = false) : join (spelled k d) name = slashes k ++ below d name := by
  rw [join, hname, if_neg Bool.false_ne_true, below]
  by_cases hne : d = []
  · subst hne
    obtain ⟨k, rfl⟩ := Nat.exists_eq_succ_of_ne_zero (Nat.ne_of_gt hk)
    have hlast : (spelled (k + 1) []).toList.getLast?.all (· == '/') = true := by
      rw [spelled_nil, String.append_empty, slashes, String.toList_ofList, List.replicate_succ',
        List.getLast?_concat]
      rfl
    rw [if_pos hlast, if_pos rfl, spelled_nil, String.append_empty]
  · obtain ⟨cs, c, hcs, hc⟩ := concat_intercalate hd hne
    have hlast : (spelled k d).toList.getLast?.all (· == '/') = false := by
      rw [spelled, String.toList_append, hcs, ← List.append_assoc, List.getLast?_concat]
      simp [hc]
    rw [hlast, if_neg Bool.false_ne_true, if_neg hne, spelled, String.append_assoc,
      String.append_assoc, String.append_assoc]

/-- The names of a relative path that is meant from the root. -/
def rootedParts (p : String) : Place := ((parts p).foldl (pushPart true) []).reverse

theorem named_rootedParts (p : String) : Named (rootedParts p) := fun x hx =>
  named_foldl_pushPart named_nil (fun _ hy => no_slash_of_mem_parts hy) x (List.mem_reverse.mp hx)

/-- The slashes in front stay, and the rest is normalised by itself. -/
theorem absolute_slashes (cwd : String) (hk : IsRoot k) (hp : isAbsolute p = false) :
    absolute cwd (slashes k ++ p) = spelled k (rootedParts p) := by
  have habs := isAbsolute_slashes hk.pos p
  have hrooted : decide (rootSlashes (slashes k ++ p) ≠ 0) = true :=
    decide_eq_true (Nat.ne_of_gt (isRoot_rootSlashes habs).pos)
  rw [absolute, join_absolute habs, normalize_eq habs, normalParts, hrooted, parts_slashes,
    foldl_pushPart_blank, rootSlashes_slashes hk hp, rootedParts]

theorem rootSlashes_eq_two : rootSlashes p = 2 ↔
    ∃ cs, p.toList = '/' :: '/' :: cs ∧ ∀ ds, cs ≠ '/' :: ds := by
  unfold rootSlashes
  split
  · next ds heq =>
    refine iff_of_false (by decide) ?_
    rintro ⟨cs, hcs, hnot⟩
    rw [heq] at hcs
    exact hnot ds (List.cons.inj (List.cons.inj hcs).2).2.symm
  · next cs hnot heq => exact iff_of_true rfl ⟨cs, heq, fun ds hds => hnot ds hds⟩
  · next ds _ hnot heq =>
    refine iff_of_false (by decide) ?_
    rintro ⟨cs, hcs, -⟩
    rw [heq] at hcs
    exact hnot cs (List.cons.inj hcs).2
  · next hnot =>
    refine iff_of_false (by decide) ?_
    rintro ⟨cs, hcs, -⟩
    exact hnot _ hcs

theorem rootSlashes_relative (hp : isAbsolute p = false) : rootSlashes p ≠ 2 := by
  rw [Ne, rootSlashes_eq_two]
  rintro ⟨cs, hcs, -⟩
  exact head_of_relative hp ('/' :: cs) hcs

theorem isAbsolute_join_relative (hdir : isAbsolute dir = false) (hp : isAbsolute p = false) :
    isAbsolute (join dir p) = false := by
  rw [join, hp, if_neg Bool.false_ne_true]
  cases hcs : dir.toList with
  | nil =>
    rw [String.toList_eq_nil_iff.mp hcs, if_pos (by rfl), String.empty_append]
    exact hp
  | cons c cs =>
    rw [isAbsolute, hcs] at hdir
    split <;> rw [isAbsolute] <;> simpa [String.toList_append, hcs] using hdir

/-- A path has two slashes in front only if it or the directory that it is meant from has two. -/
theorem rootSlashes_join_ne_two (h : rootSlashes dir ≠ 2) (h' : rootSlashes p ≠ 2) :
    rootSlashes (join dir p) ≠ 2 := by
  cases hp : isAbsolute p with
  | true =>
    rw [join_absolute hp]
    exact h'
  | false =>
    cases hdir : isAbsolute dir with
    | false => exact rootSlashes_relative (isAbsolute_join_relative hdir hp)
    | true =>
      rw [Ne, rootSlashes_eq_two] at h ⊢
      rintro ⟨cs, hcs, hnot⟩
      obtain ⟨ds, hds⟩ := isAbsolute_iff.mp hdir
      rw [join, hp, if_neg Bool.false_ne_true] at hcs
      cases ds with
      | nil =>
        rw [hds, if_pos (by rfl), String.toList_append, hds] at hcs
        exact head_of_relative hp cs (List.cons.inj hcs).2
      | cons d ds =>
        have hrest : ∃ rest, '/' :: d :: ds ++ rest = '/' :: '/' :: cs := by
          split at hcs
          · exact ⟨p.toList, by rw [← hds, ← String.toList_append, hcs]⟩
          · refine ⟨'/' :: p.toList, ?_⟩
            rw [← hds, ← hcs, String.toList_append, String.toList_append, List.append_assoc]
            rfl
        obtain ⟨rest, hrest⟩ := hrest
        obtain ⟨rfl, hcs⟩ := List.cons.inj (List.cons.inj hrest).2
        refine h ⟨ds, hds, ?_⟩
        rintro es rfl
        exact hnot (es ++ rest) hcs.symm

theorem rootSlashes_absolute {cwd : String} (hcwd : isAbsolute cwd = true) (p : String) :
    rootSlashes (absolute cwd p) = rootSlashes (join cwd p) := by
  have hjoin := isAbsolute_join hcwd p
  rw [absolute, normalize_eq hjoin,
    rootSlashes_spelled (isRoot_rootSlashes hjoin) (named_normalParts hjoin)]

end WordC.Path

namespace WordC.FileTree

open WordC.Path

variable {t : FileTree}

/-- Names are followed one below the other. -/
theorem follow_named {q : Place} (hq : Named q) {a r : Place} (h : t.follow a q = some r) :
    r = a ++ q := by
  induction q generalizing a with
  | nil =>
    rw [follow] at h
    rw [← Option.some.inj h, List.append_nil]
  | cons x q ih =>
    have hx := hq x List.mem_cons_self
    rw [follow, if_neg (not_or.mpr ⟨hx.ne_empty, hx.ne_dot⟩), if_neg hx.ne_dots] at h
    split at h
    · contradiction
    split at h
    · rw [ih (fun y hy => hq y (List.mem_cons_of_mem x hy)) h, List.append_assoc]
      rfl
    · contradiction

/-- An empty part stays where it is. -/
theorem follow_empty_part (a : Place) (ps : List String) :
    t.follow a ("" :: ps) = if t.isDirectory a then t.follow a ps else none := by
  rw [follow]
  cases t.isDirectory a <;> rfl

theorem follow_blank {k : Nat} {ps : List String} {a r : Place}
    (h : t.follow a (List.replicate k "" ++ ps) = some r) : t.follow a ps = some r := by
  induction k with
  | zero => exact h
  | succ k ih =>
    rw [List.replicate_succ, List.cons_append, follow_empty_part] at h
    split at h
    · exact ih h
    · contradiction

/-- It does not matter how many empty parts are in front, if there is one. -/
theorem follow_blank_eq {k m : Nat} (hk : 0 < k) (hm : 0 < m) (ps : List String) (a : Place) :
    t.follow a (List.replicate k "" ++ ps) = t.follow a (List.replicate m "" ++ ps) := by
  have hone (j : Nat) : t.follow a (List.replicate (j + 1) "" ++ ps) = t.follow a ("" :: ps) := by
    induction j with
    | zero => rfl
    | succ j ih =>
      rw [List.replicate_succ, List.cons_append, follow_empty_part, ih, follow_empty_part]
      split <;> rfl
  obtain ⟨k, rfl⟩ := Nat.exists_eq_succ_of_ne_zero (Nat.ne_of_gt hk)
  obtain ⟨m, rfl⟩ := Nat.exists_eq_succ_of_ne_zero (Nat.ne_of_gt hm)
  rw [hone k, hone m]

theorem locate?_absolute (t : FileTree) (cwd : String) {p : String} (hp : isAbsolute p = true) :
    t.locate? cwd p = t.follow [] (parts p) := by
  have hne : p ≠ "" := by
    rintro rfl
    contradiction
  rw [locate?, if_neg hne, join_absolute hp]

/-- A normalised path leads to its place or nowhere. -/
theorem locate?_spelled {k : Nat} (hk : IsRoot k) {q : Place} (hq : Named q) {cwd : String}
    {r : Place} (h : t.locate? cwd (spelled k q) = some r) : r = q := by
  rw [locate?_absolute t cwd (isAbsolute_spelled hk q), spelled, parts_slashes] at h
  have h := follow_blank h
  cases q with
  | nil =>
    have h : t.follow [] [] = some r := follow_blank (k := 1) h
    exact (Option.some.inj h).symm
  | cons x q =>
    rw [parts_intercalate hq (List.cons_ne_nil x q)] at h
    exact follow_named hq h

/-- So the place, with one slash or two, is the path. -/
theorem eq_spelled_of_locate? {a : String} (ha : IsNormal a) {cwd : String} {q : Place}
    (h : t.locate? cwd a = some q) : a = spelled 1 q ∨ a = spelled 2 q := by
  obtain ⟨k, r, hk, hr, rfl⟩ := ha
  obtain rfl := locate?_spelled hk hr h
  rcases hk with rfl | rfl
  · exact .inl rfl
  · exact .inr rfl

end WordC.FileTree
