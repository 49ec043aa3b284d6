import WordC.Report.Round

/-!
# What a plateau says about its counts

A plateau is carried along counts one at a time and never sees an earlier count again. What it holds
at the end can be read off the counts all the same: the least of them, and how many stand after the
place where the least one comes first. A count that only equals the best, or is worse, does not
start it anew. With that it is settled which line, if any, a report closes with.
-/

namespace WordC.Report

namespace Plateau

/-- The best of a plateau is the least of some counts, and the others it has counted stand after
the first such place. -/
structure Describes (p : Plateau) (counts : List Int) : Prop where
  mem : p.best ∈ counts
  least : ∀ n ∈ counts, p.best ≤ n
  first : counts.idxOf p.best + p.since + 1 = counts.length

namespace Describes

variable {p : Plateau} {counts : List Int}

theorem single (n : Int) : (Plateau.mk n 0).Describes [n] :=
  ⟨List.mem_singleton.mpr rfl, fun _ hm => by simp_all, by simp⟩

theorem step (h : p.Describes counts) (n : Int) : (p.step n).Describes (counts ++ [n]) := by
  rw [Plateau.step]
  split
  case isTrue hlt =>
    -- A new best is none of the earlier counts, so its first place is the last one.
    have hnew : n ∉ counts := fun hn => absurd (h.least n hn) (by omega)
    refine ⟨by simp, fun m hm => ?_, by simp [List.idxOf_append, hnew]⟩
    rcases List.mem_append.mp hm with hm | hm
    · have := h.least m hm
      show n ≤ m
      omega
    · exact Int.le_of_eq (List.mem_singleton.mp hm).symm
  case isFalse hge =>
    refine ⟨List.mem_append_left _ h.mem, fun m hm => ?_, ?_⟩
    · rcases List.mem_append.mp hm with hm | hm
      · exact h.least m hm
      · rw [List.mem_singleton.mp hm]
        exact Int.not_lt.mp hge
    · have hfirst := h.first
      simp only [List.idxOf_append, h.mem, if_true, List.length_append, List.length_singleton]
      omega

theorem run (h : p.Describes counts) (rest : List Int) :
    (rest.foldl Plateau.step p).Describes (counts ++ rest) := by
  induction rest generalizing p counts with
  | nil => simpa using h
  | cons n rest ih => simpa using ih (h.step n)

/-- Only one plateau describes given counts. -/
theorem unique {q : Plateau} (hp : p.Describes counts) (hq : q.Describes counts) : p = q := by
  have hbest : p.best = q.best := Int.le_antisymm (hp.least _ hq.mem) (hq.least _ hp.mem)
  have hsince : p.since = q.since := by
    have h₁ := hp.first
    have h₂ := hq.first
    rw [hbest] at h₁
    omega
  cases p
  cases q
  simp_all

end Describes

theorem ofHistory_describes (earlier : List Int) (now : Int) :
    (ofHistory earlier now).Describes (earlier ++ [now]) := by
  cases earlier with
  | nil => exact .single now
  | cons n ns => exact (Describes.single n).run (ns ++ [now])

/-- The plateau of a history is the one that its counts have. -/
theorem ofHistory_eq_iff {earlier : List Int} {now : Int} {p : Plateau} :
    ofHistory earlier now = p ↔ p.Describes (earlier ++ [now]) :=
  ⟨fun h => h ▸ ofHistory_describes earlier now, (ofHistory_describes earlier now).unique⟩

end Plateau

/-! ### When measuring may stop -/

theorem convergence?_noneBelow_iff (earlier : List Int) (now : Int) :
    convergence? earlier now = some .noneBelow ↔ now = 0 := by
  simp only [convergence?]
  split
  · simp_all
  · split <;> simp_all

/-- Measuring stops at a plateau when something is still below the bound and the least count first
came `patience` rounds ago or earlier. -/
theorem convergence?_plateau_iff (earlier : List Int) (now : Int) (p : Plateau) :
    convergence? earlier now = some (.plateau p) ↔
      now ≠ 0 ∧ p.Describes (earlier ++ [now]) ∧
        (earlier ++ [now]).idxOf p.best + patience < (earlier ++ [now]).length := by
  have hfirst : p.Describes (earlier ++ [now]) →
      ((earlier ++ [now]).idxOf p.best + patience < (earlier ++ [now]).length ↔
        patience ≤ p.since) := by
    intro h
    have := h.first
    omega
  rw [← Plateau.ofHistory_eq_iff] at hfirst ⊢
  simp only [convergence?]
  split
  case isTrue hzero => simp [hzero]
  case isFalse hzero =>
    split
    case isTrue hlong =>
      constructor
      · intro h
        cases h
        exact ⟨hzero, rfl, (hfirst rfl).mpr hlong⟩
      · rintro ⟨-, rfl, -⟩
        rfl
    case isFalse hshort =>
      constructor
      · intro h
        cases h
      · rintro ⟨-, rfl, hlong⟩
        exact absurd ((hfirst rfl).mp hlong) hshort

/-! ### The line that closes a report -/

/-- The reasons start with different characters, whatever numbers stand in one of them. -/
theorem Convergence.line_ne (p : Plateau) : (plateau p).line ≠ noneBelow.line := by
  intro h
  have hreason : (plateau p).reason = noneBelow.reason :=
    (String.append_right_inj _).mp ((String.append_left_inj _).mp h)
  have hhead : ((plateau p).reason).toList.head? = some 'n' := by
    show ("no improvement in " ++ toString p.since ++ " rounds; best " ++ toString p.best ++
      " below").toList.head? = some 'n'
    simp only [String.append_assoc, String.toList_append, List.head?_append]
    rfl
  rw [hreason] at hhead
  exact absurd hhead (by decide)

theorem closing_inj {ls : List String} {a b : String}
    (h : Text.unlines (ls ++ ["", a]) = Text.unlines (ls ++ ["", b])) : a = b := by
  have hlist := congrArg String.toList h
  simpa [Text.unlines, String.toList_inj] using hlist

theorem closing_ne (ls : List String) (a : String) :
    Text.unlines (ls ++ ["", a]) ≠ Text.unlines ls := by
  intro h
  have hlist := congrArg String.toList h
  simp [Text.unlines] at hlist

theorem TimeShares.measured_ne_zero_iff (t : TimeShares) :
    t.measured ≠ 0 ↔ ∃ s ∈ t.shares, 0 ≤ s.2 := by
  simp [measured, isMeasured]

namespace Round

/-- The report of a round has its findings, and then a line that says why measuring may stop. -/
def Stops (r : Round) (coverage : Json) (c : Convergence) : Prop :=
  (r.report coverage).out = Text.unlines (r.findings (.ofJson r.dir coverage) ++ ["", c.line])

variable {r : Round} {coverage : Json}

theorem out_of_convergence?_none (h : r.convergence? (.ofJson r.dir coverage) = none) :
    (r.report coverage).out = Text.unlines (r.findings (.ofJson r.dir coverage)) := by
  simp only [report, h, List.append_nil]

theorem stops_of_convergence? {c : Convergence}
    (h : r.convergence? (.ofJson r.dir coverage) = some c) : r.Stops coverage c := by
  simp only [Stops, report, h]

/-- A line closes the report only if there was a reason to stop, and that reason has the line. -/
theorem Stops.exists_line {c : Convergence} (h : r.Stops coverage c) :
    ∃ d, r.convergence? (.ofJson r.dir coverage) = some d ∧ d.line = c.line := by
  cases hd : r.convergence? (.ofJson r.dir coverage) with
  | none =>
    rw [Stops, out_of_convergence?_none hd] at h
    exact absurd h.symm (closing_ne _ _)
  | some d => exact ⟨d, rfl, closing_inj ((stops_of_convergence? hd).symm.trans h)⟩

theorem stops_noneBelow_iff :
    r.Stops coverage .noneBelow ↔ r.convergence? (.ofJson r.dir coverage) = some .noneBelow := by
  constructor
  · intro h
    obtain ⟨d, hd, hline⟩ := h.exists_line
    cases d with
    | noneBelow => exact hd
    | plateau p => exact absurd hline (Convergence.line_ne p)
  · exact stops_of_convergence?

theorem Stops.exists_plateau {q : Plateau} (h : r.Stops coverage (.plateau q)) :
    ∃ p, r.convergence? (.ofJson r.dir coverage) = some (.plateau p) := by
  obtain ⟨d, hd, hline⟩ := h.exists_line
  cases d with
  | noneBelow => exact absurd hline.symm (Convergence.line_ne q)
  | plateau p => exact ⟨p, hd⟩

theorem convergence?_eq_some_iff {cov : Coverage} {c : Convergence} :
    r.convergence? cov = some c ↔
      ((∃ s ∈ r.shares.shares, 0 ≤ s.2) ∧ coverageBound ≤ cov.percent) ∧
        Report.convergence? r.past.below r.shares.below = some c := by
  rw [convergence?, ← TimeShares.measured_ne_zero_iff]
  split
  case isTrue h => simp [h]
  case isFalse h => simp [h]

/-- The plateau of a round whose report closes with one is that of its history. -/
theorem convergence?_plateau {cov : Coverage} {p : Plateau}
    (h : r.convergence? cov = some (.plateau p)) :
    Plateau.ofHistory r.past.below r.shares.below = p :=
  Plateau.ofHistory_eq_iff.mpr
    ((convergence?_plateau_iff _ _ _).mp (convergence?_eq_some_iff.mp h).2).2.1

end Round

/-- The plateau of any history and count has their least count and says how many rounds ago it was
first reached. A report closes with the line of its plateau just when some share was measured, the
coverage is enough, something is below the bound and the least count was first reached three rounds
ago or earlier; it closes with the other line just when nothing is below the bound. -/
theorem report_closes_at_first_best (r : Round) (coverage : Json) :
    (∀ (earlier : List Int) (now : Int),
      let counts := earlier ++ [now]
      let p := Plateau.ofHistory earlier now
      p.best ∈ counts ∧ (∀ n ∈ counts, p.best ≤ n) ∧
        p.since = counts.length - 1 - counts.idxOf p.best) ∧
    let counts := r.past.below ++ [(r.shares.below : Int)]
    let p := Plateau.ofHistory r.past.below r.shares.below
    let cov := Coverage.ofJson r.dir coverage
    let ready := (∃ s ∈ r.shares.shares, 0 ≤ s.2) ∧ coverageBound ≤ cov.percent
    (r.Stops coverage (.plateau p) ↔
      ready ∧ r.shares.below ≠ 0 ∧ counts.idxOf p.best + 3 ≤ counts.length - 1) ∧
    (∀ q, r.Stops coverage (.plateau q) → r.Stops coverage (.plateau p)) ∧
    (r.Stops coverage .noneBelow ↔ ready ∧ r.shares.below = 0) ∧
    ((∀ c, ¬r.Stops coverage c) → (r.report coverage).out = Text.unlines (r.findings cov)) := by
  refine ⟨fun earlier now => ?_, ?_, fun q hq => ?_, ?_, fun hnone => ?_⟩
  · have h := Plateau.ofHistory_describes earlier now
    have hfirst := h.first
    exact ⟨h.mem, h.least, by omega⟩
  · have hdescribes := Plateau.ofHistory_describes r.past.below r.shares.below
    constructor
    · intro h
      obtain ⟨p, hp⟩ := h.exists_plateau
      rw [Round.convergence?_plateau hp]
      obtain ⟨hready, hp⟩ := Round.convergence?_eq_some_iff.mp hp
      obtain ⟨hsome, -, hlong⟩ := (convergence?_plateau_iff _ _ _).mp hp
      rw [patience] at hlong
      exact ⟨hready, by omega, by omega⟩
    · rintro ⟨hready, hsome, hlong⟩
      refine Round.stops_of_convergence? (Round.convergence?_eq_some_iff.mpr ⟨hready, ?_⟩)
      refine (convergence?_plateau_iff _ _ _).mpr ⟨by omega, hdescribes, ?_⟩
      rw [patience]
      omega
  · obtain ⟨p, hp⟩ := hq.exists_plateau
    rw [Round.convergence?_plateau hp]
    exact Round.stops_of_convergence? hp
  · rw [Round.stops_noneBelow_iff, Round.convergence?_eq_some_iff, convergence?_noneBelow_iff,
      Int.natCast_eq_zero]
  · cases hc : r.convergence? (.ofJson r.dir coverage) with
    | none => exact Round.out_of_convergence?_none hc
    | some c => exact absurd (Round.stops_of_convergence? hc) (hnone c)

/-- A round with a share below the bound, after rounds that had one, two and one. -/
def settledRound : Round :=
  { dir := "/repo", coverage := none, benches := ""
    history := Text.unlines ["\x7b\"n_below_repo_time\":1\x7d", "\x7b\"n_below_repo_time\":2\x7d",
      "\x7b\"n_below_repo_time\":1\x7d"]
    coverageRun := .ended 0 "" ""
    shareRun := some (.ended 0 "\x7b\"repo_time_pct\":\x7b\"bench_a\":9\x7d\x7d" "")
    checkRun := none, changesRun := .ended 0 "" "", begun := 0, done := 0, now := 0 }

theorem settledRound_closes :
    settledRound.Stops (.obj [("totals", .obj [("percent_covered", .ofInt 60)])])
      (.plateau ⟨1, 3⟩) := by
  have hpast : settledRound.past.below = [1, 2, 1] := by decide +kernel
  have hbelow : settledRound.shares.below = 1 := by decide +kernel
  have hshares : settledRound.shares.shares = [("bench_a", 9)] := by decide +kernel
  have hline := (report_closes_at_first_best settledRound
    (.obj [("totals", .obj [("percent_covered", .ofInt 60)])])).2.1
  rw [hpast, hbelow, hshares] at hline
  exact hline.mpr ⟨⟨⟨_, List.mem_singleton.mpr rfl, by decide +kernel⟩, by decide +kernel⟩,
    by decide, by decide⟩

end WordC.Report
