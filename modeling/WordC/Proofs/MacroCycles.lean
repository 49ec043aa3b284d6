import Mathlib.Logic.Relation
import WordC.Proofs.MacroExpansion

/-!
# Which lines macros settle on

A macro that is its own value changes nothing and plays no part. Of the others, one mentions another
if that is a word of its value. A name from which mentions lead round a cycle can be replaced, but
the text then has another such name, so every round changes the text and the rounds never end. On a
line without such a name the macros that matter can be ranked, by how many names each of them leads
to, and they settle as macros do that can be ranked: within one round more than there are macros.
-/

namespace WordC.Macros

open Relation

variable {t : Macros} {x y v cs : List Char} {ms : List (List Char × List Char)}

/-! ### Mentions -/

/-- A name that is replaced by something else. -/
def Live (t : Macros) (x : List Char) : Prop := ∃ v, t.get? (String.ofList x) = some v ∧ v ≠ x

/-- The value of the first name has the second as a word. -/
def Mentions (t : Macros) (x y : List Char) : Prop :=
  ∃ v, t.get? (String.ofList x) = some v ∧ v ≠ x ∧ IsWordOf y v ∧ t.Live y

/-- Mentions lead from the name to a cycle of names. -/
def Endless (t : Macros) (x : List Char) : Prop :=
  ∃ y, ReflTransGen t.Mentions x y ∧ TransGen t.Mentions y y

theorem Endless.exists_mentions (h : t.Endless x) : ∃ z, t.Mentions x z ∧ t.Endless z := by
  obtain ⟨y, hxy, hcycle⟩ := h
  rcases hxy.cases_head with rfl | ⟨z, hxz, hzy⟩
  · obtain ⟨z, hxz, hzx⟩ := TransGen.head'_iff.mp hcycle
    exact ⟨z, hxz, x, hzx, hcycle⟩
  · exact ⟨z, hxz, y, hzy, hcycle⟩

theorem Endless.of_mentions (hxy : t.Mentions x y) (h : t.Endless y) : t.Endless x := by
  obtain ⟨z, hyz, hcycle⟩ := h
  exact ⟨z, .head hxy hyz, hcycle⟩

theorem Endless.live (h : t.Endless x) : t.Live x := by
  obtain ⟨z, ⟨v, hv, hne, -⟩, -⟩ := h.exists_mentions
  exact ⟨v, hv, hne⟩

/-- A text with a name from which mentions lead to a cycle. -/
def HasEndless (t : Macros) (cs : List Char) : Prop := ∃ x, IsWordOf x cs ∧ t.Endless x

/-! ### What a replacement that changes nothing says -/

theorem replaceWord_self (x cs : List Char) : replaceWord x x cs = cs := by
  have hself : (fun w : List Char => if w = x then x else w) = id := by
    funext w
    split
    · next hw => exact hw.symm
    · rfl
  rw [replaceWord, hself, List.flatMap_id, flatten_chunks]

/-- Each place of the name counts for the length. -/
theorem length_flatMap_replaced (x v : List Char) (ws : List (List Char)) :
    (ws.flatMap fun w => if w = x then v else w).length + ws.count x * x.length =
    ws.flatten.length + ws.count x * v.length := by
  induction ws with
  | nil => rw [List.count_nil, Nat.zero_mul, Nat.zero_mul, List.flatMap_nil, List.flatten_nil]
  | cons w ws ih =>
    rw [List.flatMap_cons, List.length_append, List.flatten_cons, List.length_append]
    by_cases hw : w = x
    · subst hw
      rw [if_pos rfl, List.count_cons_self, Nat.succ_mul, Nat.succ_mul]
      omega
    · rw [if_neg hw, List.count_cons_of_ne hw]
      omega

theorem eq_of_flatMap_replaced {ws : List (List Char)} (hlength : v.length = x.length)
    (h : (ws.flatMap fun w => if w = x then v else w) = ws.flatten) (hx : x ∈ ws) : v = x := by
  induction ws with
  | nil => exact absurd hx List.not_mem_nil
  | cons w ws ih =>
    have hw : (if w = x then v else w).length = w.length := by
      split
      · next hw => rw [hw, hlength]
      · rfl
    obtain ⟨hhead, htail⟩ := List.append_inj h hw
    rcases List.mem_cons.mp hx with rfl | hx
    · exact (if_pos rfl).symm.trans hhead
    · exact ih htail hx

/-- A value in place of its name leaves the text as it is only if it is the name: else the lengths
of the texts differ, or the values of one length do. -/
theorem eq_of_replaceWord_same (h : replaceWord x v cs = cs) (hx : IsWordOf x cs) : v = x := by
  have hmem : x ∈ chunks cs := (isWordOf_iff_mem_chunks.mp hx).2
  have hsame : ((chunks cs).flatMap fun w => if w = x then v else w) = (chunks cs).flatten := by
    rw [flatten_chunks]
    exact h
  refine eq_of_flatMap_replaced ?_ hsame hmem
  have hlength := length_flatMap_replaced x v (chunks cs)
  rw [hsame, Nat.add_left_cancel_iff] at hlength
  exact (Nat.eq_of_mul_eq_mul_left (List.count_pos_iff.mpr hmem) hlength).symm

/-! ### Cycles stay -/

/-- Replacing a name neither brings a cycle into the text nor takes the last one away. -/
theorem hasEndless_replaceWord (hx : IsWordText x) (hv : t.get? (String.ofList x) = some v) :
    t.HasEndless (replaceWord x v cs) ↔ t.HasEndless cs := by
  by_cases hvx : v = x
  · rw [hvx, replaceWord_self]
  constructor
  · rintro ⟨y, hy, hendless⟩
    rcases (isWordOf_replaceWord hx).mp hy with ⟨hy, -⟩ | ⟨hold, hy⟩
    · exact ⟨y, hy, hendless⟩
    · exact ⟨x, hold, .of_mentions ⟨v, hv, hvx, hy, hendless.live⟩ hendless⟩
  · rintro ⟨y, hy, hendless⟩
    by_cases hyx : y = x
    · subst hyx
      obtain ⟨z, ⟨u, hu, -, hz, -⟩, hzendless⟩ := hendless.exists_mentions
      obtain rfl := Option.some.inj (hv.symm.trans hu)
      exact ⟨z, (isWordOf_replaceWord hx).mpr (.inr ⟨hy, hz⟩), hzendless⟩
    · exact ⟨y, (isWordOf_replaceWord hx).mpr (.inl ⟨hy, hyx⟩), hendless⟩

theorem hasEndless_round (hms : t.Among ms) : t.HasEndless (round ms cs).1 ↔ t.HasEndless cs := by
  induction ms generalizing cs with
  | nil => rfl
  | cons m ms ih => exact (ih hms.tail).trans (hasEndless_replaceWord hms.head.1 hms.head.2)

theorem settle_of_hasEndless (hms : t.Lists ms) (h : t.HasEndless cs) (rounds : Nat) :
    settle ms rounds cs = none := by
  induction rounds generalizing cs with
  | zero => rfl
  | succ rounds ih =>
    rw [settle]
    rcases hround : round ms cs with ⟨new, changed⟩
    cases changed with
    | false =>
      obtain ⟨x, hx, hendless⟩ := h
      obtain ⟨v, hv, hne⟩ := hendless.live
      have hsame : replaceWord x v cs = cs :=
        (round_same (by rw [hround])).2 x v ((hms.mem_iff x v).mpr hv)
      exact absurd (eq_of_replaceWord_same hsame hx) hne
    | true =>
      have hnew := (hasEndless_round hms.among).mpr h
      rw [hround] at hnew
      exact ih hnew

/-! ### The macros that matter on a line without cycles -/

open Classical in
/-- A macro that changes something, and does not go on for ever. -/
noncomputable def ends (t : Macros) (m : List Char × List Char) : Bool :=
  decide (m.2 ≠ m.1 ∧ ¬ t.Endless m.1)

theorem ends_iff : t.ends (x, v) = true ↔ v ≠ x ∧ ¬ t.Endless x := by
  classical exact decide_eq_true_iff

/-- The table of the macros that matter. -/
noncomputable def ending (t : Macros) : Macros :=
  ⟨t.entries.filter fun e => t.ends (e.1.toList, e.2)⟩

theorem get?_ending (ht : t.keys.Nodup) : t.ending.get? (String.ofList x) = some v ↔
    t.get? (String.ofList x) = some v ∧ v ≠ x ∧ ¬ t.Endless x := by
  have hkeys : t.ending.keys.Nodup := ht.sublist (List.filter_sublist.map _)
  rw [← Table.mem_entries_iff hkeys, ← Table.mem_entries_iff ht, ending, List.mem_filter,
    String.toList_ofList, ends_iff]

theorem Lists.ending (ht : t.keys.Nodup) (hms : t.Lists ms) :
    t.ending.Lists (ms.filter t.ends) := by
  constructor
  · intro x v
    rw [List.mem_filter, ends_iff, hms.mem_iff, get?_ending ht]
  · intro x v hx
    exact hms.isWordText x v (List.mem_filter.mp hx).1

/-- The other macros find no name of theirs, or put it in its own place. -/
theorem round_filter_ends (hms : t.Among ms) (h : ¬ t.HasEndless cs) :
    round (ms.filter t.ends) cs = round ms cs := by
  induction ms generalizing cs with
  | nil => rfl
  | cons m ms ih =>
    have hnew : ¬ t.HasEndless (replaceWord m.1 m.2 cs) := by
      rwa [hasEndless_replaceWord hms.head.1 hms.head.2]
    by_cases hm : t.ends m = true
    · rw [List.filter_cons_of_pos hm, round, round, ih hms.tail hnew]
    · have hsame : replaceWord m.1 m.2 cs = cs := by
        by_cases hself : m.2 = m.1
        · rw [hself, replaceWord_self]
        · refine replaceWord_of_not hms.head.1 fun hword =>
            hm (ends_iff.mpr ⟨hself, fun hendless => h ⟨m.1, hword, hendless⟩⟩)
      rw [List.filter_cons_of_neg hm, ih hms.tail h, round, hsame]
      simp

theorem settle_filter_ends (hms : t.Among ms) (h : ¬ t.HasEndless cs) (rounds : Nat) :
    settle (ms.filter t.ends) rounds cs = settle ms rounds cs := by
  induction rounds generalizing cs with
  | zero => rfl
  | succ rounds ih =>
    have hnew : ¬ t.HasEndless (round ms cs).1 := by rwa [hasEndless_round hms]
    rw [settle, settle, round_filter_ends hms h]
    rcases hround : round ms cs with ⟨new, changed⟩
    rw [hround] at hnew
    cases changed with
    | false => rfl
    | true => exact ih hnew

/-! ### Ranks from mentions -/

open Classical in
/-- Mentions lead from the first name to the second. -/
noncomputable def leads (t : Macros) (x : List Char) (k : String) : Bool :=
  decide (TransGen t.Mentions x k.toList)

theorem leads_iff : t.leads x (String.ofList y) = true ↔ TransGen t.Mentions x y := by
  rw [leads, String.toList_ofList]
  classical exact decide_eq_true_iff

theorem not_leads_self (h : ¬ t.Endless x) : ¬ t.leads x (String.ofList x) = true :=
  fun hcycle => h ⟨x, .refl, leads_iff.mp hcycle⟩

/-- How many names mentions lead to. -/
noncomputable def reach (t : Macros) (x : List Char) : Nat := t.keys.countP (t.leads x)

theorem countP_lt_countP {α : Type} {p q : α → Bool} {l : List α}
    (hpq : ∀ a, p a = true → q a = true) {a : α} (ha : a ∈ l) (hq : q a = true)
    (hp : ¬ p a = true) : l.countP p < l.countP q := by
  induction l with
  | nil => exact absurd ha List.not_mem_nil
  | cons b l ih =>
    rcases List.mem_cons.mp ha with rfl | ha
    · rw [List.countP_cons_of_neg hp, List.countP_cons_of_pos hq]
      exact Nat.lt_succ_of_le (List.countP_mono_left fun b _ => hpq b)
    · have hlt := ih ha
      rw [List.countP_cons, List.countP_cons]
      by_cases hb : p b = true
      · rw [if_pos hb, if_pos (hpq b hb)]
        omega
      · rw [if_neg hb]
        omega

theorem mem_keys_of_get? (h : t.get? (String.ofList x) = some v) : String.ofList x ∈ t.keys :=
  List.mem_map.mpr ⟨_, Table.mem_of_find? h, rfl⟩

/-- A name that is mentioned leads to all that it leads to, but not to itself. -/
theorem ranked_ending (ht : t.keys.Nodup) : t.ending.Ranked t.reach := by
  intro x v hv y hy hsome
  obtain ⟨u, hu⟩ := Option.isSome_iff_exists.mp hsome
  obtain ⟨hv, hvx, -⟩ := (get?_ending ht).mp hv
  obtain ⟨hu, huy, hends⟩ := (get?_ending ht).mp hu
  have hmentions : t.Mentions x y := ⟨v, hv, hvx, hy, u, hu, huy⟩
  refine countP_lt_countP ?_ (mem_keys_of_get? hu) (leads_iff.mpr (.single hmentions))
    (not_leads_self hends)
  intro k hk
  rw [← String.ofList_toList (s := k)] at hk ⊢
  exact leads_iff.mpr (.head hmentions (leads_iff.mp hk))

theorem below_ending (ht : t.keys.Nodup) (cs : List Char) :
    t.ending.Below t.reach t.entries.length cs := by
  intro x _ hsome
  obtain ⟨v, hv⟩ := Option.isSome_iff_exists.mp hsome
  obtain ⟨hv, -, hends⟩ := (get?_ending ht).mp hv
  have hall : t.entries.length = t.keys.countP fun _ => true := by
    rw [List.countP_true, Table.keys, List.length_map]
  rw [hall]
  exact countP_lt_countP (fun _ _ => rfl) (mem_keys_of_get? hv) rfl (not_leads_self hends)

theorem settles_of_not_hasEndless (ht : t.Written) (h : ¬ t.HasEndless cs) :
    ∃ out, t.expand? (t.entries.length + 1) cs = some out := by
  have hkeys := ht.keys.1
  have hlists := ht.lists_order
  obtain ⟨out, hsettle, -⟩ :=
    (ranked_ending hkeys).settles (hlists.ending hkeys) (Nat.lt_succ_self _) (below_ending hkeys cs)
  rw [settle_filter_ends hlists.among h] at hsettle
  exact ⟨out, hsettle⟩

/-- More rounds do not change what macros settle on. -/
theorem settle_unique {rounds rounds' : Nat} {out out' : List Char}
    (h : settle ms rounds cs = some out) (h' : settle ms rounds' cs = some out') : out = out' := by
  induction rounds generalizing cs rounds' with
  | zero => cases h
  | succ rounds ih =>
    cases rounds' with
    | zero => cases h'
    | succ rounds' =>
      rw [settle] at h h'
      rcases hround : round ms cs with ⟨new, changed⟩
      rw [hround] at h h'
      cases changed with
      | false => exact Option.some.inj (h.symm.trans h')
      | true => exact ih h h'

/-- The rounds on a line end if and only if mentions lead from no word of the line to a cycle. They
end within one round more than there are macros, or never. -/
theorem expand_settles_iff (t : Macros) (ht : t.Written) (line : List Char) :
    ((∃ rounds out, t.expand? rounds line = some out) ↔
      ¬ ∃ x y, IsWordOf x line ∧ ReflTransGen t.Mentions x y ∧ TransGen t.Mentions y y) ∧
    ∀ rounds out, t.expand? rounds line = some out →
    t.expand? (t.entries.length + 1) line = some out := by
  have hends {rounds : Nat} {out : List Char} (h : t.expand? rounds line = some out) :
      ¬ t.HasEndless line := by
    intro hendless
    have hnone := settle_of_hasEndless ht.lists_order hendless rounds
    rw [expand?, hnone] at h
    cases h
  refine ⟨⟨?_, ?_⟩, ?_⟩
  · rintro ⟨rounds, out, h⟩ ⟨x, y, hx, hxy, hcycle⟩
    exact hends h ⟨x, hx, y, hxy, hcycle⟩
  · intro h
    obtain ⟨out, hout⟩ := settles_of_not_hasEndless ht fun ⟨x, hx, y, hxy, hcycle⟩ =>
      h ⟨x, y, hx, hxy, hcycle⟩
    exact ⟨_, out, hout⟩
  · intro rounds out h
    obtain ⟨out', hout'⟩ := settles_of_not_hasEndless ht (hends h)
    rw [hout', settle_unique h hout']

theorem isWordOf_name {c : Char} (hc : isWordChar c = true) : IsWordOf [c] [c] :=
  ⟨⟨List.cons_ne_nil _ _, List.forall_mem_singleton.mpr hc⟩, [], [], rfl,
    endsWord_nil, endsWord_nil⟩

/-- A macro that mentions itself, one that is its own value, and two that are neither. -/
def growingMacros : Macros :=
  ⟨[("A", "(A)".toList), ("B", "B".toList), ("C", "B+D".toList), ("D", "1".toList)]⟩

theorem growingMacros_written : growingMacros.Written := by
  have hA : Directive.define? "#define A (A)".toList = .ok (some (['A'], "(A)".toList)) := by rfl
  have hB : Directive.define? "#define B B".toList = .ok (some (['B'], ['B'])) := by rfl
  have hC : Directive.define? "#define C B+D".toList = .ok (some (['C'], "B+D".toList)) := by rfl
  have hD : Directive.define? "#define D 1".toList = .ok (some (['D'], ['1'])) := by rfl
  exact (((Written.empty.define hA).define hB).define hC).define hD

theorem growingMacros_live (h : growingMacros.Live x) : x ∈ [['A'], ['C'], ['D']] := by
  obtain ⟨v, hv, hvx⟩ := h
  have hmem : (String.ofList x, v) ∈ growingMacros.entries := Table.mem_of_find? hv
  have hname {s : String} (h : String.ofList x = s) : s.toList = x := by
    rw [← h, String.toList_ofList]
  simp only [growingMacros, List.mem_cons, List.not_mem_nil, or_false, Prod.mk.injEq] at hmem
  rcases hmem with ⟨hx, -⟩ | ⟨hx, hv⟩ | ⟨hx, -⟩ | ⟨hx, -⟩
  · exact hname hx ▸ .head _
  · exact absurd (hv.trans (hname hx)) hvx
  · exact hname hx ▸ .tail _ (.head _)
  · exact hname hx ▸ .tail _ (.tail _ (.head _))

theorem growingMacros_mentions (h : growingMacros.Mentions x y) :
    (x = ['A'] ∧ y = ['A']) ∨ (x = ['C'] ∧ y = ['D']) := by
  obtain ⟨v, hv, hvx, hy, hlive⟩ := h
  have hA : ∀ z ∈ [['A'], ['C'], ['D']], z ∈ chunks "(A)".toList → z = ['A'] := by decide
  have hC : ∀ z ∈ [['A'], ['C'], ['D']], z ∈ chunks "B+D".toList → z = ['D'] := by decide
  have hD : ∀ z ∈ [['A'], ['C'], ['D']], z ∉ chunks "1".toList := by decide
  have hchunk : y ∈ chunks v := (isWordOf_iff_mem_chunks.mp hy).2
  have hmem := growingMacros_live ⟨v, hv, hvx⟩
  simp only [List.mem_cons, List.not_mem_nil, or_false] at hmem
  rcases hmem with rfl | rfl | rfl
  · obtain rfl : "(A)".toList = v := Option.some.inj hv
    exact .inl ⟨rfl, hA y (growingMacros_live hlive) hchunk⟩
  · obtain rfl : "B+D".toList = v := Option.some.inj hv
    exact .inr ⟨rfl, hC y (growingMacros_live hlive) hchunk⟩
  · obtain rfl : "1".toList = v := Option.some.inj hv
    exact absurd hchunk (hD y (growingMacros_live hlive))

theorem growingMacros_settle :
    growingMacros.Written ∧ (¬ ∃ rounds out, growingMacros.expand? rounds "A".toList = some out) ∧
      ∃ out, growingMacros.expand? 5 "C*B".toList = some out := by
  refine ⟨growingMacros_written, ?_, ?_⟩
  · have hmentions : growingMacros.Mentions ['A'] ['A'] :=
      ⟨"(A)".toList, rfl, by decide, isWordOf_iff_mem_chunks.mpr ⟨(isWordOf_name rfl).1, by decide⟩,
        "(A)".toList, rfl, by decide⟩
    exact fun h => (expand_settles_iff growingMacros growingMacros_written ['A']).1.mp h
      ⟨['A'], ['A'], isWordOf_name rfl, .refl, .single hmentions⟩
  · obtain ⟨hiff, hbound⟩ := expand_settles_iff growingMacros growingMacros_written "C*B".toList
    have hends (x : List Char) (hx : x ∈ [['B'], ['D']]) : ¬ growingMacros.Endless x := by
      intro h
      obtain ⟨z, hz, -⟩ := h.exists_mentions
      rcases growingMacros_mentions hz with ⟨rfl, -⟩ | ⟨rfl, -⟩ <;> exact absurd hx (by decide)
    obtain ⟨rounds, out, hout⟩ := hiff.mpr (by
      rintro ⟨x, y, hx, hxy, hcycle⟩
      have hchunk : x ∈ [['C'], ['*'], ['B']] := (isWordOf_iff_mem_chunks.mp hx).2
      obtain ⟨z, hz, hendless⟩ := Endless.exists_mentions ⟨y, hxy, hcycle⟩
      rcases growingMacros_mentions hz with ⟨rfl, -⟩ | ⟨-, rfl⟩
      · exact absurd hchunk (by decide)
      · exact hends ['D'] (by decide) hendless)
    exact ⟨out, hbound rounds out hout⟩

/-- Two macros that are each other's value. -/
def swappedMacros : Macros := ⟨[("A", ['B']), ("B", ['A'])]⟩

theorem swappedMacros_never_settle :
    swappedMacros.Written ∧ ∀ rounds, swappedMacros.expand? rounds ['A'] = none := by
  have hA : Directive.define? "#define A B".toList = .ok (some (['A'], ['B'])) := by rfl
  have hB : Directive.define? "#define B A".toList = .ok (some (['B'], ['A'])) := by rfl
  have hwritten : swappedMacros.Written := (Written.empty.define hA).define hB
  have hAB : swappedMacros.Mentions ['A'] ['B'] :=
    ⟨['B'], rfl, by decide, isWordOf_name rfl, ['A'], rfl, by decide⟩
  have hBA : swappedMacros.Mentions ['B'] ['A'] :=
    ⟨['A'], rfl, by decide, isWordOf_name rfl, ['B'], rfl, by decide⟩
  have hendless : swappedMacros.HasEndless ['A'] :=
    ⟨['A'], isWordOf_name rfl, ['A'], .refl, .tail (.single hAB) hBA⟩
  exact ⟨hwritten, settle_of_hasEndless hwritten.lists_order hendless⟩

end WordC.Macros
