import WordC.Proofs.IncludeDepth

/-!
# Walks along includes

A walk goes from a file along include lines, and the numbers of the lines name it. While every name
is resolved, a file is gathered exactly if no two walks from it end at one path. Includes that do
not go round are not enough: a file that two others include is reached by two walks.
-/

namespace WordC

/-- An error in a file that includes lead to, with the numbers of the include lines counted from
zero. -/
def SourceError.along (e : SourceError) : List Nat → SourceError
  | [] => e
  | n :: ns => .included (1 + n) (e.along ns)

namespace Files

/-- From the file at `a` along include lines, whose numbers count from zero, to the file at `c`. -/
inductive Walk (w : Files) (base : String) : String → List Nat → String → Prop
  | here (a : String) : Walk w base a [] a
  | step {a b c : String} {n : Nat} {ns : List Nat} :
      w.IncludesAt base a n b → Walk w base b ns c → Walk w base a (n :: ns) c

/-- Every file that is reached can be read, and every include line in it is well formed and its name
stands for a path. -/
def Resolved (w : Files) (base a : String) : Prop :=
  ∀ c, Relation.ReflTransGen (w.Includes base) a c → ∃ text, w.tree.read w.cwd c = .ok text ∧
    ∀ cs ∈ Text.pieces text, Directive.IsLine "#include" cs →
      ∃ name p, Directive.Includes cs name ∧
      w.lookUp base (Path.directory c) (String.ofList name) = some p

/-- Whether the file at a path can be read and every include line in it is well formed and its name
stands for a path. -/
def resolves (w : Files) (base c : String) : Bool :=
  match w.tree.read w.cwd c with
  | .error _ => false
  | .ok text => (Text.pieces text).all fun cs => !"#include".toList.isPrefixOf (Text.trim cs) ||
      ((Directive.included? cs).bind fun name =>
      w.lookUp base (Path.directory c) (String.ofList name)).isSome

/-- A walk whose first line, if it has one, is among the first `i` lines. -/
def WalkBelow (w : Files) (base a : String) (i : Nat) (ns : List Nat) (c : String) : Prop :=
  w.Walk base a ns c ∧ ∀ n ∈ ns.head?, n < i

variable {w : Files} {base a b c : String} {i : Nat} {ns : List Nat}

theorem Resolved.of_includes (h : w.Resolved base a) (hb : w.Includes base a b) :
    w.Resolved base b := fun c hc =>
  h c (hc.head hb)

/-- Paths among which there are those of all files that they include. -/
def Closed (w : Files) (base : String) (paths : List String) : Prop :=
  ∀ c ∈ paths, ∀ n, ∀ b ∈ w.includeAt? base c n, b ∈ paths

theorem Closed.mem_of_reach {paths : List String} (h : w.Closed base paths) (ha : a ∈ paths)
    (hc : Relation.ReflTransGen (w.Includes base) a c) : c ∈ paths := by
  induction hc with
  | refl => exact ha
  | tail _ hlast ih =>
    obtain ⟨n, hlast⟩ := hlast
    exact h _ ih n _ (includesAt_iff_includeAt?.mp hlast)

theorem Closed.resolved {paths : List String} (h : w.Closed base paths) (ha : a ∈ paths)
    (hpaths : ∀ c ∈ paths, w.resolves base c = true) : w.Resolved base a := by
  intro c hc
  have hresolves := hpaths c (h.mem_of_reach ha hc)
  unfold resolves at hresolves
  split at hresolves
  · cases hresolves
  · next text hread =>
    refine ⟨text, hread, ?_⟩
    intro cs hcs hinclude
    have hinclude : "#include".toList.isPrefixOf (Text.trim cs) = true := hinclude
    have hline := List.all_eq_true.mp hresolves cs hcs
    rw [hinclude, Bool.not_true, Bool.false_or] at hline
    obtain ⟨p, hp⟩ := Option.isSome_iff_exists.mp hline
    obtain ⟨name, hname, hp⟩ := Option.bind_eq_some_iff.mp hp
    exact ⟨name, p, Directive.included?_eq_some.mp hname, hp⟩

theorem walk_cons : w.Walk base a (i :: ns) c ↔
    ∃ b, w.IncludesAt base a i b ∧ w.Walk base b ns c := by
  constructor
  · intro h
    cases h with
    | step hb hwalk => exact ⟨_, hb, hwalk⟩
  · rintro ⟨b, hb, hwalk⟩
    exact .step hb hwalk

theorem walk_nil : w.Walk base a [] c ↔ c = a := by
  constructor
  · intro h
    cases h
    rfl
  · rintro rfl
    exact .here c

/-- A walk from a file whose lines include the files listed. -/
theorem Walk.cases_of_includeAt? {targets : List String}
    (htargets : ∀ n, w.includeAt? base a n = targets[n]?) (h : w.Walk base a ns c) :
    ns = [] ∧ c = a ∨ ∃ n b ms, ns = n :: ms ∧ targets[n]? = some b ∧ w.Walk base b ms c := by
  cases h with
  | here => exact .inl ⟨rfl, rfl⟩
  | step hb hwalk => exact .inr ⟨_, _, _, rfl, htargets _ ▸ includesAt_iff_includeAt?.mp hb, hwalk⟩

/-- There is one walk from a file that includes nothing. -/
theorem Walk.eq_of_includeAt?_nil (ha : ∀ n, w.includeAt? base a n = [][n]?)
    (h : w.Walk base a ns c) : ns = [] ∧ c = a := by
  rcases h.cases_of_includeAt? ha with h | ⟨n, b, ms, -, hb, -⟩
  · exact h
  · exact absurd (List.mem_of_getElem? hb) List.not_mem_nil

/-- What is reached is reached by a walk. -/
theorem reach_iff_walk : Relation.ReflTransGen (w.Includes base) a c ↔
    ∃ ns, w.Walk base a ns c := by
  constructor
  · intro h
    induction h using Relation.ReflTransGen.head_induction_on with
    | refl => exact ⟨[], .here c⟩
    | head hb _ ih =>
      obtain ⟨n, hb⟩ := hb
      obtain ⟨ns, hns⟩ := ih
      exact ⟨n :: ns, .step hb hns⟩
  · rintro ⟨ns, hns⟩
    induction hns with
    | here => exact .refl
    | step hb _ ih => exact ih.head ⟨_, hb⟩

theorem walkBelow_zero : w.WalkBelow base a 0 ns c ↔ ns = [] ∧ c = a := by
  constructor
  · rintro ⟨hwalk, hfirst⟩
    cases ns with
    | nil => exact ⟨rfl, walk_nil.mp hwalk⟩
    | cons n ns => exact absurd (hfirst n rfl) (Nat.not_lt_zero n)
  · rintro ⟨rfl, rfl⟩
    exact ⟨.here c, fun n hn => absurd hn (Option.not_mem_none n)⟩

theorem walkBelow_succ : w.WalkBelow base a (i + 1) ns c ↔ w.WalkBelow base a i ns c ∨
    ∃ b ms, ns = i :: ms ∧ w.IncludesAt base a i b ∧ w.Walk base b ms c := by
  constructor
  · rintro ⟨hwalk, hfirst⟩
    cases ns with
    | nil => exact .inl ⟨hwalk, fun n hn => absurd hn (Option.not_mem_none n)⟩
    | cons n ns =>
      rcases Nat.lt_succ_iff_lt_or_eq.mp (hfirst n rfl) with hn | rfl
      · refine .inl ⟨hwalk, ?_⟩
        rintro m hm
        rw [← Option.some.inj hm]
        exact hn
      · obtain ⟨b, hb, hwalk⟩ := walk_cons.mp hwalk
        exact .inr ⟨b, ns, rfl, hb, hwalk⟩
  · rintro (⟨hwalk, hfirst⟩ | ⟨b, ms, rfl, hb, hwalk⟩)
    · exact ⟨hwalk, fun n hn => Nat.lt_succ_of_lt (hfirst n hn)⟩
    · refine ⟨.step hb hwalk, ?_⟩
      rintro m hm
      rw [← Option.some.inj hm]
      exact Nat.lt_succ_self i

/-- A walk starts with one of the lines of the file. -/
theorem walkBelow_length {text : List Char} (hread : w.tree.read w.cwd a = .ok text) :
    w.WalkBelow base a (Text.pieces text).length ns c ↔ w.Walk base a ns c := by
  refine ⟨fun h => h.1, fun hwalk => ⟨hwalk, ?_⟩⟩
  cases ns with
  | nil => exact fun n hn => absurd hn (Option.not_mem_none n)
  | cons m ns =>
    rintro n hn
    obtain ⟨b, hb, -⟩ := walk_cons.mp hwalk
    rw [← Option.some.inj hn]
    exact hb.lt hread

/-- Walks that start earlier come first. -/
theorem WalkBelow.lt_cons (h : w.WalkBelow base a i ns c) (ms : List Nat) : ns < i :: ms := by
  cases ns with
  | nil => exact List.nil_lt_cons i ms
  | cons n ns => exact List.cons_lt_cons_iff.mpr (.inl (h.2 n rfl))

/-- What has been gathered when the first `i` lines of the file at `a` are done: exactly what walks
through them reach, each by one walk, and none of it was there before. -/
structure Walked (w : Files) (base a : String) (i : Nat) (before after : List String) : Prop where
  mem : ∀ c, c ∈ after ↔ c ∈ before ∨ ∃ ns, w.WalkBelow base a i ns c
  new : ∀ c ns, w.WalkBelow base a i ns c → c ∉ before
  unique : ∀ c ns ms, w.WalkBelow base a i ns c → w.WalkBelow base a i ms c → ns = ms

theorem walked_zero {before : List String} (ha : a ∉ before) :
    w.Walked base a 0 before (before ++ [a]) := by
  refine ⟨?_, ?_, ?_⟩
  · intro c
    rw [List.mem_append, List.mem_singleton]
    refine or_congr_right ⟨fun hc => ⟨[], walkBelow_zero.mpr ⟨rfl, hc⟩⟩, ?_⟩
    rintro ⟨ns, hns⟩
    exact (walkBelow_zero.mp hns).2
  · intro c ns hns
    rw [(walkBelow_zero.mp hns).2]
    exact ha
  · intro c ns ms hns hms
    rw [(walkBelow_zero.mp hns).1, (walkBelow_zero.mp hms).1]

/-- A line that includes nothing starts no walk. -/
theorem Walked.plain {before after : List String} (h : w.Walked base a i before after)
    (hnot : ∀ b, ¬ w.IncludesAt base a i b) : w.Walked base a (i + 1) before after := by
  have hsame : ∀ c ns, w.WalkBelow base a (i + 1) ns c ↔ w.WalkBelow base a i ns c := by
    intro c ns
    rw [walkBelow_succ]
    refine or_iff_left ?_
    rintro ⟨b, _, _, hb, -⟩
    exact hnot b hb
  refine ⟨?_, ?_, ?_⟩
  · intro c
    rw [h.mem c, exists_congr (hsame c)]
  · exact fun c ns hns => h.new c ns ((hsame c ns).mp hns)
  · exact fun c ns ms hns hms => h.unique c ns ms ((hsame c ns).mp hns) ((hsame c ms).mp hms)

/-- A line that includes a file starts the walks that go on from that file. -/
theorem Walked.through {before middle after : List String} (h : w.Walked base a i before middle)
    (hb : w.IncludesAt base a i b) (hmem : ∀ c, c ∈ after ↔ c ∈ middle ∨ ∃ ns, w.Walk base b ns c)
    (hnew : ∀ c ns, w.Walk base b ns c → c ∉ middle)
    (hunique : ∀ c ns ms, w.Walk base b ns c → w.Walk base b ms c → ns = ms) :
    w.Walked base a (i + 1) before after := by
  have hsucc : ∀ c ns, w.WalkBelow base a (i + 1) ns c ↔
      w.WalkBelow base a i ns c ∨ ∃ ms, ns = i :: ms ∧ w.Walk base b ms c := by
    intro c ns
    rw [walkBelow_succ]
    refine or_congr_right ⟨?_, ?_⟩
    · rintro ⟨b', ms, hns, hb', hwalk⟩
      rw [← hb.unique hb'] at hwalk
      exact ⟨ms, hns, hwalk⟩
    · rintro ⟨ms, hns, hwalk⟩
      exact ⟨b, ms, hns, hb, hwalk⟩
  refine ⟨?_, ?_, ?_⟩
  · intro c
    rw [hmem c, h.mem c, or_assoc]
    refine or_congr_right ⟨?_, ?_⟩
    · rintro (⟨ns, hns⟩ | ⟨ns, hns⟩)
      · exact ⟨ns, (hsucc c ns).mpr (.inl hns)⟩
      · exact ⟨i :: ns, (hsucc c _).mpr (.inr ⟨ns, rfl, hns⟩)⟩
    · rintro ⟨ns, hns⟩
      rcases (hsucc c ns).mp hns with hns | ⟨ms, -, hms⟩
      · exact .inl ⟨ns, hns⟩
      · exact .inr ⟨ms, hms⟩
  · intro c ns hns hc
    rcases (hsucc c ns).mp hns with hns | ⟨ms, -, hms⟩
    · exact h.new c ns hns hc
    · exact hnew c ms hms ((h.mem c).mpr (.inl hc))
  · intro c ns ms hns hms
    have hapart {ls ls' : List Nat} (hls : w.WalkBelow base a i ls c)
        (hls' : w.Walk base b ls' c) : False :=
      hnew c ls' hls' ((h.mem c).mpr (.inr ⟨ls, hls⟩))
    rcases (hsucc c ns).mp hns with hns | ⟨ns', rfl, hns'⟩
    · rcases (hsucc c ms).mp hms with hms | ⟨ms', rfl, hms'⟩
      · exact h.unique c ns ms hns hms
      · exact (hapart hns hms').elim
    · rcases (hsucc c ms).mp hms with hms | ⟨ms', rfl, hms'⟩
      · exact (hapart hms hns').elim
      · rw [hunique c ns' ms' hns' hms']

/-- How gathering the file at `a` fails: a walk ends at a path that was there before or that an
earlier walk ends at. -/
def Revisits (w : Files) (base a : String) (before : List String) (e : SourceError) : Prop :=
  ∃ c ns, e = (SourceError.circular c).along ns ∧ w.Walk base a ns c ∧
    (c ∈ before ∨ ∃ ms, ms < ns ∧ w.Walk base a ms c)

theorem Revisits.through {before middle : List String} {e : SourceError}
    (h : w.Walked base a i before middle) (hb : w.IncludesAt base a i b)
    (he : w.Revisits base b middle e) : w.Revisits base a before (.included (1 + i) e) := by
  obtain ⟨c, ns, rfl, hwalk, hc⟩ := he
  refine ⟨c, i :: ns, rfl, .step hb hwalk, ?_⟩
  rcases hc with hc | ⟨ms, hlt, hms⟩
  · rcases (h.mem c).mp hc with hc | ⟨ms, hms⟩
    · exact .inl hc
    · exact .inr ⟨ms, hms.lt_cons ns, hms.1⟩
  · exact .inr ⟨i :: ms, List.cons_lt_cons_iff.mpr (.inr ⟨rfl, hlt⟩), .step hb hms⟩

end Files

namespace Gather

variable {w : Files} {rounds : Nat} {g : Gathered}

/-- A run over a file whose names are resolved takes every walk, up to the first that ends where one
has ended already. -/
theorem walked_fileAt (hcwd : Path.isAbsolute w.cwd = true) (hw : w.Undefining)
    (hrounds : 0 < rounds) {depth : Nat} (p : String) (hg : g.macros = {})
    (hdepth : (w.left g.included).length < depth) (hresolved : w.Resolved g.base (w.absolute p)) :
    (fileAt w rounds depth p).Ends g
      (fun _ g' =>
        (∀ c, c ∈ g'.included ↔ c ∈ g.included ∨ ∃ ns, w.Walk g.base (w.absolute p) ns c) ∧
        (∀ c ns, w.Walk g.base (w.absolute p) ns c → c ∉ g.included) ∧
        ∀ c ns ms, w.Walk g.base (w.absolute p) ns c → w.Walk g.base (w.absolute p) ms c → ns = ms)
      (fun e _ => w.Revisits g.base (w.absolute p) g.included e) := by
  induction depth generalizing p g with
  | zero => exact absurd hdepth (Nat.not_lt_zero _)
  | succ depth ih =>
    obtain ⟨text, hread, hlines⟩ := hresolved _ .refl
    refine ends_fileWith ?_ ?_ ?_ ?_
    · exact fun hold => ⟨_, [], rfl, .here _, .inl hold⟩
    · intro hcontains
      rw [contains_of_read hread] at hcontains
      cases hcontains
    · intro e he
      rw [hread] at he
      cases he
    · intro text' hnew hread'
      obtain rfl := Except.ok.inj (hread.symm.trans hread')
      have hless := Files.length_left_lt_of_read hcwd hnew hread
      have hcontent : (contentWith w rounds (fileAt w rounds depth)
          (some (Path.directory (w.absolute p))) text).Ends
          (g.take (w.absolute p)) (fun _ g' =>
          w.Walked g.base (w.absolute p) (Text.pieces text).length g.included g'.included)
          (fun e _ => w.Revisits g.base (w.absolute p) g.included e) := by
        refine ends_contentWith hw hrounds (leading_fileAt w rounds depth) hread
          ((g.take_macros _).trans hg) (fun i g' => w.Walked g.base
          (w.absolute p) i g.included g'.included) ?_ ?_ ?_ ?_ (Files.walked_zero hnew)
        · exact fun i g' hi hnot => hi.plain hnot
        · intro i cs _ _ hcs hinclude hbad
          obtain ⟨name, _, hname, -⟩ := hlines cs (List.mem_of_getElem? hcs) hinclude
          exact absurd hname (hbad name)
        · intro i cs name _ _ hcs hname hmissing
          obtain ⟨name', p', hname', hp'⟩ := hlines cs (List.mem_of_getElem? hcs) hname.1
          obtain rfl := Option.some.inj (hname.2.1.symm.trans hname'.2.1)
          rw [g.take_base, hp'] at hmissing
          cases hmissing
        · intro i q g' hleads hi hq
          have hle := Files.length_left_le_of_leads hleads
          have hbase : g'.base = g.base := hleads.base
          have hq' : w.Resolved g'.base (w.absolute q) := by
            rw [hbase]
            exact hresolved.of_includes ⟨i, hq⟩
          have hfile := ih q (hleads.macros hw hg) (Nat.lt_of_le_of_lt hle (by omega)) hq'
          rw [hbase] at hfile
          refine hfile.mono ?_ ?_
          · exact fun _ _ hwalked => hi.through hq hwalked.1 hwalked.2.1 hwalked.2.2
          · exact fun _ _ he => he.through hi hq
      refine hcontent.mono ?_ (fun _ _ he => he)
      intro _ g' hwalked
      have hall : ∀ c ns, w.WalkBelow g.base (w.absolute p) (Text.pieces text).length ns c ↔
          w.Walk g.base (w.absolute p) ns c :=
        fun c ns => Files.walkBelow_length hread
      refine ⟨?_, ?_, ?_⟩
      · intro c
        rw [hwalked.mem c, exists_congr (hall c)]
      · exact fun c ns hns => hwalked.new c ns ((hall c ns).mpr hns)
      · exact fun c ns ms hns hms =>
          hwalked.unique c ns ms ((hall c ns).mpr hns) ((hall c ms).mpr hms)

/-- What is known of a main file that is gathered, and of one that is not. -/
theorem walked_mainFile (hcwd : Path.isAbsolute w.cwd = true) (hw : w.Undefining)
    (hrounds : 0 < rounds) (p : String) {base : String}
    (hbase : Path.directory (w.absolute p) = base) (hresolved : w.Resolved base (w.absolute p)) :
    (mainFile w rounds p).Ends g
      (fun _ g' => (∀ c, c ∈ g'.included ↔ ∃ ns, w.Walk base (w.absolute p) ns c) ∧
        ∀ c ns ms, w.Walk base (w.absolute p) ns c → w.Walk base (w.absolute p) ms c → ns = ms)
      (fun e _ => ∃ c ns ms, e = (SourceError.circular c).along ns ∧
        w.Walk base (w.absolute p) ns c ∧
        w.Walk base (w.absolute p) ms c ∧ ms < ns) := by
  have hrun := mainFile_apply w rounds p g
  rw [hbase] at hrun
  have hends := walked_fileAt (g := { base := base }) hcwd hw hrounds p rfl
    (w.length_left_lt_depth []) hresolved
  refine ⟨?_, ?_⟩
  · intro lines g' hlines
    obtain ⟨hmem, -, hunique⟩ := hends.ok lines g' (hrun ▸ hlines)
    exact ⟨fun c => (hmem c).trans (or_iff_right List.not_mem_nil), hunique⟩
  · intro e g' he
    obtain ⟨c, ns, heq, hns, hold | ⟨ms, hlt, hms⟩⟩ := hends.failed e g' (hrun ▸ he)
    · exact absurd hold List.not_mem_nil
    · exact ⟨c, ns, ms, heq, hns, hms, hlt⟩

end Gather

/-! ### A file that two others include -/

/-- A file of the characters of a text. -/
def FileEntry.ofText (text : String) : FileEntry :=
  .file (text.toList.flatMap String.utf8EncodeChar)

/-- A main file that includes two others, which include a third. -/
def sharedFiles : Files where
  tree := { entries := [(["main.sc"], .ofText "#include \"a.sc\"\n#include \"b.sc\""),
    (["a.sc"], .ofText "#include \"c.sc\""), (["b.sc"], .ofText "#include \"c.sc\""),
    (["c.sc"], .ofText "c")] }
  cwd := "/"

namespace sharedFiles

/-- The files, none in front of one that includes it. -/
def paths : List String := ["/main.sc", "/a.sc", "/b.sc", "/c.sc"]

theorem includeAt?_main (n : Nat) :
    sharedFiles.includeAt? "/" "/main.sc" n = ["/a.sc", "/b.sc"][n]? := by
  rcases n with _ | _ | n <;> rfl

theorem includeAt?_a (n : Nat) : sharedFiles.includeAt? "/" "/a.sc" n = ["/c.sc"][n]? := by
  rcases n with _ | n <;> rfl

theorem includeAt?_b (n : Nat) : sharedFiles.includeAt? "/" "/b.sc" n = ["/c.sc"][n]? := by
  rcases n with _ | n <;> rfl

theorem includeAt?_c (n : Nat) : sharedFiles.includeAt? "/" "/c.sc" n = [][n]? := by
  rcases n with _ | n <;> rfl

theorem later_of_includeAt? {c : String} (hc : c ∈ paths) (n : Nat) (b : String)
    (hb : b ∈ sharedFiles.includeAt? "/" c n) : b ∈ paths ∧ paths.idxOf c < paths.idxOf b := by
  simp only [paths, List.mem_cons, List.not_mem_nil, or_false] at hc
  rcases hc with rfl | rfl | rfl | rfl
  · rw [includeAt?_main] at hb
    have hb := List.mem_of_getElem? hb
    simp only [List.mem_cons, List.not_mem_nil, or_false] at hb
    rcases hb with rfl | rfl <;> decide
  · rw [includeAt?_a] at hb
    rw [List.mem_singleton.mp (List.mem_of_getElem? hb)]
    decide
  · rw [includeAt?_b] at hb
    rw [List.mem_singleton.mp (List.mem_of_getElem? hb)]
    decide
  · rw [includeAt?_c] at hb
    exact absurd (List.mem_of_getElem? hb) List.not_mem_nil

theorem closed : sharedFiles.Closed "/" paths :=
  fun _ hc n b hb => (later_of_includeAt? hc n b hb).1

theorem resolved : sharedFiles.Resolved "/" "/main.sc" := by
  refine closed.resolved List.mem_cons_self ?_
  intro c hc
  simp only [paths, List.mem_cons, List.not_mem_nil, or_false] at hc
  rcases hc with rfl | rfl | rfl | rfl <;> rfl

/-- Nothing goes round. -/
theorem idxOf_lt_of_transGen {c d : String} (hc : c ∈ paths)
    (h : Relation.TransGen (sharedFiles.Includes "/") c d) :
    d ∈ paths ∧ paths.idxOf c < paths.idxOf d := by
  induction h with
  | single hd =>
    obtain ⟨n, hd⟩ := hd
    exact later_of_includeAt? hc n _ (Files.includesAt_iff_includeAt?.mp hd)
  | tail _ hd ih =>
    obtain ⟨n, hd⟩ := hd
    obtain ⟨hmem, hlt⟩ := later_of_includeAt? ih.1 n _ (Files.includesAt_iff_includeAt?.mp hd)
    exact ⟨hmem, Nat.lt_trans ih.2 hlt⟩

/-- All walks from the main file. -/
def walks : List (List Nat × String) :=
  [([], "/main.sc"), ([0], "/a.sc"), ([0, 0], "/c.sc"), ([1], "/b.sc"), ([1, 0], "/c.sc")]

theorem walk_middle {a : String} (ha : ∀ n, sharedFiles.includeAt? "/" a n = ["/c.sc"][n]?)
    {ns : List Nat} {c : String} (h : sharedFiles.Walk "/" a ns c) :
    ns = [] ∧ c = a ∨ ns = [0] ∧ c = "/c.sc" := by
  rcases h.cases_of_includeAt? ha with h | ⟨n, b, ms, rfl, hb, hwalk⟩
  · exact .inl h
  · rcases n with _ | n
    · obtain rfl := Option.some.inj hb
      obtain ⟨rfl, rfl⟩ := hwalk.eq_of_includeAt?_nil includeAt?_c
      exact .inr ⟨rfl, rfl⟩
    · cases hb

theorem mem_walks {ns : List Nat} {c : String} (h : sharedFiles.Walk "/" "/main.sc" ns c) :
    (ns, c) ∈ walks := by
  rcases h.cases_of_includeAt? includeAt?_main with ⟨rfl, rfl⟩ | ⟨n, b, ms, rfl, hb, hwalk⟩
  · decide
  rcases n with _ | _ | n
  · obtain rfl := Option.some.inj hb
    rcases walk_middle includeAt?_a hwalk with ⟨rfl, rfl⟩ | ⟨rfl, rfl⟩ <;> decide
  · obtain rfl := Option.some.inj hb
    rcases walk_middle includeAt?_b hwalk with ⟨rfl, rfl⟩ | ⟨rfl, rfl⟩ <;> decide
  · cases hb

theorem walk_zero_zero : sharedFiles.Walk "/" "/main.sc" [0, 0] "/c.sc" :=
  .step (Files.includesAt_iff_includeAt?.mpr (includeAt?_main 0))
    (.step (Files.includesAt_iff_includeAt?.mpr (includeAt?_a 0)) (.here _))

theorem walk_one_zero : sharedFiles.Walk "/" "/main.sc" [1, 0] "/c.sc" :=
  .step (Files.includesAt_iff_includeAt?.mpr (includeAt?_main 1))
    (.step (Files.includesAt_iff_includeAt?.mpr (includeAt?_b 0)) (.here _))

theorem undefining : sharedFiles.Undefining := fun _ => Files.not_isLine_of_lines rfl

end sharedFiles

/-! ### A file on its two paths -/

/-- A main file that includes a file on its two paths. -/
def twoPaths : Files where
  tree := { entries := [(["main.sc"], .ofText "#include \"/a.sc\"\n#include \"//a.sc\""),
    (["a.sc"], .ofText "x")] }
  cwd := "/"

namespace twoPaths

def paths : List String := ["/main.sc", "/a.sc", "//a.sc"]

theorem includeAt?_main (n : Nat) :
    twoPaths.includeAt? "/" "/main.sc" n = ["/a.sc", "//a.sc"][n]? := by
  rcases n with _ | _ | n <;> rfl

theorem includeAt?_one (n : Nat) : twoPaths.includeAt? "/" "/a.sc" n = [][n]? := by
  rcases n with _ | n <;> rfl

theorem includeAt?_two (n : Nat) : twoPaths.includeAt? "/" "//a.sc" n = [][n]? := by
  rcases n with _ | n <;> rfl

theorem closed : twoPaths.Closed "/" paths := by
  intro c hc n b hb
  simp only [paths, List.mem_cons, List.not_mem_nil, or_false] at hc
  rcases hc with rfl | rfl | rfl
  · rw [includeAt?_main] at hb
    exact List.mem_cons_of_mem _ (List.mem_of_getElem? hb)
  · rw [includeAt?_one] at hb
    exact absurd (List.mem_of_getElem? hb) List.not_mem_nil
  · rw [includeAt?_two] at hb
    exact absurd (List.mem_of_getElem? hb) List.not_mem_nil

theorem resolved : twoPaths.Resolved "/" "/main.sc" := by
  refine closed.resolved List.mem_cons_self ?_
  intro c hc
  simp only [paths, List.mem_cons, List.not_mem_nil, or_false] at hc
  rcases hc with rfl | rfl | rfl <;> rfl

theorem undefining : twoPaths.Undefining := fun _ => Files.not_isLine_of_lines rfl

/-- All walks from the main file. -/
def walks : List (List Nat × String) := [([], "/main.sc"), ([0], "/a.sc"), ([1], "//a.sc")]

theorem mem_walks {ns : List Nat} {c : String} (h : twoPaths.Walk "/" "/main.sc" ns c) :
    (ns, c) ∈ walks := by
  rcases h.cases_of_includeAt? includeAt?_main with ⟨rfl, rfl⟩ | ⟨n, b, ms, rfl, hb, hwalk⟩
  · decide
  rcases n with _ | _ | n
  · obtain rfl := Option.some.inj hb
    obtain ⟨rfl, rfl⟩ := hwalk.eq_of_includeAt?_nil includeAt?_one
    decide
  · obtain rfl := Option.some.inj hb
    obtain ⟨rfl, rfl⟩ := hwalk.eq_of_includeAt?_nil includeAt?_two
    decide
  · cases hb

theorem walks_unique {ns ms : List Nat} {c : String} (hns : twoPaths.Walk "/" "/main.sc" ns c)
    (hms : twoPaths.Walk "/" "/main.sc" ms c) : ns = ms := by
  have hall : ∀ x ∈ walks, ∀ y ∈ walks, x.2 = y.2 → x = y := by decide
  exact congrArg Prod.fst (hall _ (mem_walks hns) _ (mem_walks hms) rfl)

end twoPaths

/-! ### When a main file is gathered -/

namespace Gather

/-- Where every file that is reached can be read and every name in it is resolved, a main file is
gathered exactly if no two walks from it end at one path, and then every file that is reached is.
Every error names a path that two walks end at, and the lines of the later one. -/
theorem mainFile_ok_iff_walks_unique (w : Files) (hcwd : Path.isAbsolute w.cwd = true)
    (hw : w.Undefining) (rounds : Nat) (hrounds : 0 < rounds) (p base : String) (g : Gathered)
    (hbase : Path.directory (w.absolute p) = base) (hresolved : w.Resolved base (w.absolute p)) :
    ((∃ lines, (mainFile w rounds p g).1 = .ok lines) ↔
      ∀ c ns ms, w.Walk base (w.absolute p) ns c → w.Walk base (w.absolute p) ms c → ns = ms) ∧
    (∀ lines, (mainFile w rounds p g).1 = .ok lines → ∀ c, c ∈ (mainFile w rounds p g).2.included ↔
      Relation.ReflTransGen (w.Includes base) (w.absolute p) c) ∧
    ∀ e, (mainFile w rounds p g).1 = .error e → ∃ c ns ms, e = (SourceError.circular c).along ns ∧
      w.Walk base (w.absolute p) ns c ∧ w.Walk base (w.absolute p) ms c ∧ ms < ns := by
  have hends := walked_mainFile (g := g) hcwd hw hrounds p hbase hresolved
  refine ⟨⟨?_, ?_⟩, ?_, fun e he => hends.failed_fst he⟩
  · rintro ⟨lines, hlines⟩
    exact (hends.ok_fst hlines).2
  · intro hunique
    rcases hrun : (mainFile w rounds p g).1 with e | lines
    · obtain ⟨c, ns, ms, -, hns, hms, hlt⟩ := hends.failed_fst hrun
      rw [hunique c ns ms hns hms] at hlt
      exact absurd hlt (List.lt_irrefl ms)
    · exact ⟨lines, rfl⟩
  · intro lines hlines c
    rw [(hends.ok_fst hlines).1 c, Files.reach_iff_walk]

/-- A main file that is gathered. -/
theorem twoPaths_gathered : twoPaths.Resolved "/" "/main.sc" ∧
    ∃ lines, (mainFile twoPaths 1 "main.sc" { base := "" }).1 = .ok lines :=
  ⟨twoPaths.resolved,
    (mainFile_ok_iff_walks_unique twoPaths rfl twoPaths.undefining 1 Nat.zero_lt_one "main.sc" "/"
      _ rfl twoPaths.resolved).1.mpr fun _ _ _ hns hms => twoPaths.walks_unique hns hms⟩

/-- Names that are resolved and files none of which includes itself through others are not enough.
-/
theorem sharedFiles_not_gathered :
    sharedFiles.Undefining ∧ (∀ cs, sharedFiles.HasLine cs → ¬ Directive.IsLine "#undef" cs) ∧
    sharedFiles.Resolved "/" "/main.sc" ∧
    (∀ c, Relation.ReflTransGen (sharedFiles.Includes "/") "/main.sc" c →
      ¬ Relation.TransGen (sharedFiles.Includes "/") c c) ∧
    (mainFile sharedFiles 1 "main.sc" { base := "" }).1 =
    .error (.included 2 (.included 1 (.circular "/c.sc"))) := by
  refine ⟨sharedFiles.undefining,
    fun _ => Files.not_isLine_of_lines rfl, sharedFiles.resolved, ?_, ?_⟩
  · intro c hreach hcycle
    have hc := sharedFiles.closed.mem_of_reach List.mem_cons_self hreach
    exact absurd (sharedFiles.idxOf_lt_of_transGen hc hcycle).2 (Nat.lt_irrefl _)
  · have hends : (mainFile sharedFiles 1 "main.sc").Ends { base := "" } _ _ :=
      walked_mainFile rfl sharedFiles.undefining Nat.zero_lt_one "main.sc" rfl sharedFiles.resolved
    rcases hrun : (mainFile sharedFiles 1 "main.sc" { base := "" }).1 with e | lines
    · obtain ⟨c, ns, ms, rfl, hns, hms, hlt⟩ := hends.failed_fst hrun
      have hlater : ∀ x ∈ sharedFiles.walks, ∀ y ∈ sharedFiles.walks, y.2 = x.2 → y.1 < x.1 →
          x = ([1, 0], "/c.sc") := by
        decide
      cases hlater _ (sharedFiles.mem_walks hns) _ (sharedFiles.mem_walks hms) rfl hlt
      rfl
    · have hsame := (hends.ok_fst hrun).2 _ _ _ sharedFiles.walk_zero_zero sharedFiles.walk_one_zero
      exact absurd hsame (by decide)

end Gather

end WordC
