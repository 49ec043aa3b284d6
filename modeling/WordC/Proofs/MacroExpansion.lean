import WordC.Proofs.Numerals
import WordC.Proofs.Tables
import WordC.Proofs.Words
import WordC.Source.Directive

/-!
# Macros expand to the full expansion

In the full expansion of a text every word that is a defined name gives way to the full expansion of
its value, and all else stays. A text has at most one. Macros that can be ranked, so that the
defined names in a value are of lower rank than the macro itself, settle: a round leaves no name of
the highest rank that the text had, since only names of higher rank could bring one back. What they
settle on is the full expansion, whatever the order in which the macros are tried.
-/

namespace WordC.Macros

open Text

/-! ### Tables that directives make -/

/-- A table that definitions, and lines that take one back, make of the empty one. -/
inductive Written : Macros → Prop
  | empty : Written {}
  | define {t : Macros} {line x v : List Char} :
      Written t → Directive.define? line = .ok (some (x, v)) → Written (t.set (String.ofList x) v)
  | undef {t : Macros} {line x : List Char} :
      Written t → Directive.undef? line = some x → Written (t.erase (String.ofList x))

variable {c : Char} {cs out x v : List Char} {ms : List (List Char × List Char)}

theorem isWordChar_of_isAlpha (h : c.isAlpha = true) : isWordChar c = true := by
  have hlt : c.toNat < 128 := by
    rcases Bool.or_eq_true_iff.mp (show (c.isUpper || c.isLower) = true from h) with hu | hl
    · have hZ : c.val ≤ 'Z'.val := (of_decide_eq_true hu : c.val ≥ 'A'.val ∧ c.val ≤ 'Z'.val).2
      have : c.toNat ≤ 90 := hZ
      omega
    · have hz : c.val ≤ 'z'.val := of_decide_eq_true (Bool.and_eq_true_iff.mp hl).2
      have : c.toNat ≤ 122 := hz
      omega
  rw [isWordChar, isLetter_ascii hlt, h]
  rfl

theorem isWordChar_of_isMacroChar (h : Directive.isMacroChar c = true) : isWordChar c = true := by
  rcases Bool.or_eq_true_iff.mp h with hc | hc
  · rcases Bool.or_eq_true_iff.mp (show (c.isAlpha || c.isDigit) = true from hc) with ha | hd
    · exact isWordChar_of_isAlpha ha
    · rw [isWordChar, isNumeric_ascii (toNat_lt_of_isDigit hd), hd, Bool.or_true, Bool.true_or]
  · rw [isWordChar, hc, Bool.or_true]

theorem isWordText_of_macroName? {rest : List Char} (h : Directive.macroName? cs = some (x, rest)) :
    IsWordText x := by
  cases cs with
  | nil => contradiction
  | cons c cs =>
    rw [Directive.macroName?] at h
    split at h
    · next hc =>
      obtain ⟨rfl, -⟩ := Prod.mk.inj (Option.some.inj h)
      refine ⟨List.cons_ne_nil _ _, ?_⟩
      intro d hd
      rcases List.mem_cons.mp hd with rfl | hd
      · rcases Bool.or_eq_true_iff.mp hc with ha | hu
        · exact isWordChar_of_isAlpha ha
        · rw [isWordChar, hu, Bool.or_true]
      · exact isWordChar_of_isMacroChar (List.all_eq_true.mp List.all_takeWhile d hd)
    · contradiction

theorem isWordText_of_define? {line : List Char} (h : Directive.define? line = .ok (some (x, v))) :
    IsWordText x := by
  unfold Directive.define? at h
  split at h
  · cases h
  · cases h
  · split at h
    · cases h
    · next hname =>
      cases h
      exact isWordText_of_macroName? hname

/-- Names are words, and none stands twice in a table. -/
theorem Written.keys {t : Macros} (h : t.Written) :
    t.keys.Nodup ∧ ∀ x ∈ t.keys, IsWordText x.toList := by
  induction h with
  | empty => exact ⟨List.nodup_nil, fun x hx => absurd hx List.not_mem_nil⟩
  | @define t line x v _ hline ih =>
    refine ⟨Table.nodup_keys_set ih.1 _ _, ?_⟩
    intro y hy
    rw [Table.keys_set] at hy
    split at hy
    · exact ih.2 y hy
    · rcases List.mem_append.mp hy with hy | hy
      · exact ih.2 y hy
      · rw [List.mem_singleton.mp hy, String.toList_ofList]
        exact isWordText_of_define? hline
  | @undef t line x _ _ ih =>
    have hsub : (t.erase (String.ofList x)).keys.Sublist t.keys := List.filter_sublist.map _
    exact ⟨ih.1.sublist hsub, fun y hy => ih.2 y (hsub.subset hy)⟩

/-! ### Full expansion -/

/-- The full expansion of a text. -/
inductive Expands (t : Macros) : List Char → List Char → Prop
  | nil : Expands t [] []
  | other {c : Char} {cs ds : List Char} :
      isWordChar c = false → Expands t cs ds → Expands t (c :: cs) (c :: ds)
  | word {x cs ds : List Char} :
      IsWordText x → EndsWord cs → t.get? (String.ofList x) = none → Expands t cs ds →
      Expands t (x ++ cs) (x ++ ds)
  | name {x v cs full ds : List Char} :
      IsWordText x → EndsWord cs → t.get? (String.ofList x) = some v → Expands t v full →
      Expands t cs ds → Expands t (x ++ cs) (full ++ ds)

/-- A text without defined names. -/
def Plain (t : Macros) (cs : List Char) : Prop :=
  ∀ x, IsWordOf x cs → t.get? (String.ofList x) = none

variable {t : Macros}

/-- What the front of a text says about its full expansion. -/
theorem Expands.cases_front {text : List Char} (h : t.Expands text out) :
    (text = [] ∧ out = []) ∨
      (∃ c cs ds, text = c :: cs ∧ out = c :: ds ∧ isWordChar c = false ∧ t.Expands cs ds) ∨
      (∃ x cs ds, text = x ++ cs ∧ out = x ++ ds ∧ IsWordText x ∧ EndsWord cs ∧
        t.get? (String.ofList x) = none ∧ t.Expands cs ds) ∨
      ∃ x v cs full ds, text = x ++ cs ∧ out = full ++ ds ∧ IsWordText x ∧ EndsWord cs ∧
      t.get? (String.ofList x) = some v ∧
        t.Expands v full ∧ t.Expands cs ds := by
  cases h with
  | nil => exact .inl ⟨rfl, rfl⟩
  | other hc h => exact .inr (.inl ⟨_, _, _, rfl, rfl, hc, h⟩)
  | word hx hcs hnone h => exact .inr (.inr (.inl ⟨_, _, _, rfl, rfl, hx, hcs, hnone, h⟩))
  | name hx hcs hsome hv h =>
    exact .inr (.inr (.inr ⟨_, _, _, _, _, rfl, rfl, hx, hcs, hsome, hv, h⟩))

theorem Expands.of_nil (h : t.Expands [] out) : out = [] := by
  rcases h.cases_front with ⟨-, rfl⟩ | ⟨c, cs, ds, heq, -⟩ | ⟨x, cs, ds, heq, -, hx, -⟩ | ⟨x, v, cs,
    full, ds, heq, -, hx, -⟩
  · rfl
  · contradiction
  all_goals
    rw [eq_comm, List.append_eq_nil_iff] at heq
    exact absurd heq.1 hx.1

theorem Expands.of_cons (hc : isWordChar c = false) (h : t.Expands (c :: cs) out) :
    ∃ ds, out = c :: ds ∧ t.Expands cs ds := by
  rcases h.cases_front with ⟨heq, -⟩ | ⟨d, es, ds, heq, rfl, -, h⟩ | ⟨x, es, ds, heq, -, hx,
    -⟩ | ⟨x, v, es, fs, ds, heq, -, hx, -⟩
  · contradiction
  · obtain ⟨rfl, rfl⟩ := List.cons.inj heq
    exact ⟨ds, rfl, h⟩
  all_goals
    have hends : EndsWord (c :: cs) := endsWord_cons.mpr hc
    rw [heq] at hends
    exact absurd hends hx.not_endsWord

/-- Behind the word at the front the full expansion goes on by itself. -/
theorem Expands.of_word (hx : IsWordText x) (hcs : EndsWord cs) (h : t.Expands (x ++ cs) out) :
    ∃ full ds, out = full ++ ds ∧ t.Expands cs ds ∧
      (t.get? (String.ofList x) = none ∧ full = x ∨
        ∃ v, t.get? (String.ofList x) = some v ∧ t.Expands v full) := by
  rcases h.cases_front with ⟨heq, -⟩ | ⟨d, es, ds, heq, -, hd, -⟩ | ⟨y, es, ds, heq, rfl, hy, hes,
    hnone, h⟩ | ⟨y, v, es, full, ds, heq, rfl, hy, hes, hsome, hv, h⟩
  · exact absurd (List.append_eq_nil_iff.mp heq).1 hx.1
  · have hends : EndsWord (d :: es) := endsWord_cons.mpr hd
    rw [← heq] at hends
    exact absurd hends hx.not_endsWord
  · obtain ⟨rfl, rfl⟩ := word_split hx hy hcs hes heq
    exact ⟨x, ds, rfl, h, .inl ⟨hnone, rfl⟩⟩
  · obtain ⟨rfl, rfl⟩ := word_split hx hy hcs hes heq
    exact ⟨full, ds, rfl, h, .inr ⟨v, hsome, hv⟩⟩

theorem Expands.unique {out' : List Char} (h : t.Expands cs out) (h' : t.Expands cs out') :
    out' = out := by
  induction h generalizing out' with
  | nil => exact h'.of_nil
  | other hc _ ih =>
    obtain ⟨ds', rfl, hds'⟩ := h'.of_cons hc
    rw [ih hds']
  | word hx hcs hnone _ ih =>
    obtain ⟨full', ds', rfl, hds', ⟨-, rfl⟩ | ⟨v', hsome', -⟩⟩ := h'.of_word hx hcs
    · rw [ih hds']
    · rw [hnone] at hsome'
      contradiction
  | name hx hcs hsome _ _ ihv ih =>
    obtain ⟨full', ds', rfl, hds', ⟨hnone', -⟩ | ⟨v', hsome', hv'⟩⟩ := h'.of_word hx hcs
    · rw [hsome] at hnone'
      contradiction
    · obtain rfl := Option.some.inj (hsome.symm.trans hsome')
      rw [ihv hv', ih hds']

/-- The full expansion of a text that is followed by no word character is a part of that of the
whole. -/
theorem Expands.of_append {ds : List Char} (hds : EndsWord ds) (h : t.Expands (cs ++ ds) out) :
    ∃ front rest, out = front ++ rest ∧ t.Expands cs front ∧ t.Expands ds rest := by
  induction cs using word_induction generalizing out with
  | nil => exact ⟨[], out, rfl, .nil, h⟩
  | other c cs hc ih =>
    obtain ⟨es, rfl, hes⟩ := Expands.of_cons hc h
    obtain ⟨front, rest, rfl, hfront, hrest⟩ := ih hes
    exact ⟨c :: front, rest, rfl, .other hc hfront, hrest⟩
  | word x cs hx hcs ih =>
    rw [List.append_assoc] at h
    obtain ⟨full, es, rfl, hes, hfull⟩ := h.of_word hx (hcs.append hds)
    obtain ⟨front, rest, rfl, hfront, hrest⟩ := ih hes
    refine ⟨full ++ front, rest, by rw [List.append_assoc], ?_, hrest⟩
    rcases hfull with ⟨hnone, rfl⟩ | ⟨v, hsome, hv⟩
    · exact .word hx hcs hnone hfront
    · exact .name hx hcs hsome hv hfront

theorem Plain.expands (h : t.Plain cs) : t.Expands cs cs := by
  induction cs using word_induction with
  | nil => exact .nil
  | other c cs hc ih => exact .other hc (ih fun x hx => h x ((isWordOf_cons hc).mpr hx))
  | word x cs hx hcs ih =>
    exact .word hx hcs (h x ((isWordOf_word hx hcs).mpr (.inl rfl)))
      (ih fun y hy => h y ((isWordOf_word hx hcs).mpr (.inr hy)))

/-- Replacing a name by its value does not change the full expansion. -/
theorem Expands.of_replaceWord (hx : IsWordText x) (hv : t.get? (String.ofList x) = some v)
    (h : t.Expands (replaceWord x v cs) out) : t.Expands cs out := by
  induction cs using word_induction generalizing out with
  | nil => exact h
  | other c cs hc ih =>
    rw [replaceWord_cons hx cs hc] at h
    obtain ⟨ds, rfl, hds⟩ := h.of_cons hc
    exact .other hc (ih hds)
  | word y cs hy hcs ih =>
    have hends : EndsWord (replaceWord x v cs) := endsWord_replaceWord hx hcs
    rw [replaceWord_word hy hcs] at h
    by_cases hyx : y = x
    · subst hyx
      rw [if_pos rfl] at h
      obtain ⟨full, rest, rfl, hfull, hrest⟩ := h.of_append hends
      exact .name hy hcs hv hfull (ih hrest)
    · rw [if_neg hyx] at h
      obtain ⟨full, rest, rfl, hrest, ⟨hnone, rfl⟩ | ⟨u, hu, hfull⟩⟩ := h.of_word hy hends
      · exact .word hy hcs hnone (ih hrest)
      · exact .name hy hcs hu hfull (ih hrest)

/-! ### Ranks -/

/-- The defined names in a value are of lower rank than the macro. -/
def Ranked (t : Macros) (rank : List Char → Nat) : Prop :=
  ∀ x v, t.get? (String.ofList x) = some v → ∀ y, IsWordOf y v →
    (t.get? (String.ofList y)).isSome → rank y < rank x

def Acyclic (t : Macros) : Prop := ∃ rank, t.Ranked rank

/-- The defined names in a text are of a rank below a bound. -/
def Below (t : Macros) (rank : List Char → Nat) (k : Nat) (cs : List Char) : Prop :=
  ∀ x, IsWordOf x cs → (t.get? (String.ofList x)).isSome → rank x < k

theorem plain_of_below_zero {rank : List Char → Nat} (h : t.Below rank 0 cs) : t.Plain cs := by
  intro x hx
  rw [← Option.not_isSome_iff_eq_none]
  exact fun hsome => Nat.not_lt_zero _ (h x hx hsome)

/-- A table has finitely many names. -/
theorem exists_below (t : Macros) (rank : List Char → Nat) : ∃ k, ∀ cs, t.Below rank k cs := by
  have hbound : ∀ es : List (String × List Char), ∃ k, ∀ e ∈ es, rank e.1.toList < k := by
    intro es
    induction es with
    | nil => exact ⟨0, fun e he => absurd he List.not_mem_nil⟩
    | cons e es ih =>
      obtain ⟨k, hk⟩ := ih
      refine ⟨k + rank e.1.toList + 1, ?_⟩
      intro d hd
      rcases List.mem_cons.mp hd with rfl | hd
      · omega
      · have := hk d hd
        omega
  obtain ⟨k, hk⟩ := hbound t.entries
  refine ⟨k, ?_⟩
  intro cs x _ hx
  obtain ⟨v, hv⟩ := Option.isSome_iff_exists.mp hx
  have := hk _ (Table.mem_of_find? hv)
  rwa [String.toList_ofList] at this

/-! ### Rounds -/

/-- The macros of a table in some order. -/
structure Lists (t : Macros) (ms : List (List Char × List Char)) : Prop where
  mem_iff : ∀ x v, (x, v) ∈ ms ↔ t.get? (String.ofList x) = some v
  isWordText : ∀ x v, (x, v) ∈ ms → IsWordText x

theorem Written.lists_order (h : t.Written) : t.Lists t.order := by
  have hmem (x v : List Char) : (x, v) ∈ t.order ↔ (String.ofList x, v) ∈ t.entries := by
    rw [order, List.mem_map]
    constructor
    · rintro ⟨e, he, heq⟩
      obtain ⟨rfl, rfl⟩ := Prod.mk.inj heq
      rw [String.ofList_toList]
      exact List.mem_mergeSort.mp he
    · intro he
      exact ⟨_, List.mem_mergeSort.mpr he, by rw [String.toList_ofList]⟩
  constructor
  · intro x v
    rw [hmem, Table.mem_entries_iff h.keys.1]
  · intro x v hx
    have := h.keys.2 (String.ofList x) (List.mem_map.mpr ⟨_, (hmem x v).mp hx, rfl⟩)
    rwa [String.toList_ofList] at this

theorem Lists.perm {ms' : List (List Char × List Char)} (h : t.Lists ms)
    (hperm : ms'.Perm ms) : t.Lists ms' :=
  ⟨fun x v => (hperm.mem_iff).trans (h.mem_iff x v), fun x v hx =>
    h.isWordText x v (hperm.mem_iff.mp hx)⟩

/-- Two tables with the same definitions list the same macros. -/
theorem Lists.of_get? {u : Macros} (h : u.Lists ms) (hget : ∀ x, u.get? x = t.get? x) :
    t.Lists ms :=
  ⟨fun x v => by rw [h.mem_iff, hget], h.isWordText⟩

/-- Macros of a table. -/
def Among (t : Macros) (ms : List (List Char × List Char)) : Prop :=
  ∀ x v, (x, v) ∈ ms → IsWordText x ∧ t.get? (String.ofList x) = some v

theorem Lists.among (h : t.Lists ms) : t.Among ms :=
  fun x v hx => ⟨h.isWordText x v hx, (h.mem_iff x v).mp hx⟩

theorem Among.head (h : t.Among ((x, v) :: ms)) :
    IsWordText x ∧ t.get? (String.ofList x) = some v := h x v List.mem_cons_self

theorem Among.tail {m : List Char × List Char} (h : t.Among (m :: ms)) : t.Among ms :=
  fun x v hx => h x v (List.mem_cons_of_mem m hx)

theorem Expands.of_round (hms : t.Among ms)
    (h : t.Expands (round ms cs).1 out) : t.Expands cs out := by
  induction ms generalizing cs with
  | nil => exact h
  | cons m ms ih => exact (ih hms.tail h).of_replaceWord hms.head.1 hms.head.2

/-- A round that reports no change made none. -/
theorem round_same (h : (round ms cs).2 = false) :
    (round ms cs).1 = cs ∧ ∀ x v, (x, v) ∈ ms → replaceWord x v cs = cs := by
  induction ms with
  | nil => exact ⟨rfl, fun x v hx => absurd hx List.not_mem_nil⟩
  | cons m ms ih =>
    have hflags : decide (replaceWord m.1 m.2 cs ≠ cs) = false ∧
        (round ms (replaceWord m.1 m.2 cs)).2 = false := Bool.or_eq_false_iff.mp h
    have hsame : replaceWord m.1 m.2 cs = cs := Decidable.not_not.mp (of_decide_eq_false hflags.1)
    rw [hsame] at hflags
    obtain ⟨hlast, hrest⟩ := ih hflags.2
    refine ⟨?_, fun x v hx => ?_⟩
    · show (round ms (replaceWord m.1 m.2 cs)).1 = cs
      rw [hsame, hlast]
    · rcases List.mem_cons.mp hx with rfl | hx
      · exact hsame
      · exact hrest x v hx

/-- A text in which no name of a macro is a word passes a round unchanged. -/
theorem round_of_not (hms : t.Among ms)
    (h : ∀ x v, (x, v) ∈ ms → ¬ IsWordOf x cs) : round ms cs = (cs, false) := by
  induction ms with
  | nil => rfl
  | cons m ms ih =>
    have hsame : replaceWord m.1 m.2 cs = cs :=
      replaceWord_of_not hms.head.1 (h m.1 m.2 List.mem_cons_self)
    rw [round, hsame, ih hms.tail fun x v hx => h x v (List.mem_cons_of_mem m hx)]
    simp

theorem round_of_plain (hms : t.Among ms) (h : t.Plain cs) :
    round ms cs = (cs, false) := by
  refine round_of_not hms ?_
  intro x v hx hword
  have := h x hword
  rw [(hms x v hx).2] at this
  contradiction

section Ranked

variable {rank : List Char → Nat} (hr : t.Ranked rank)
include hr

theorem Ranked.not_isWordOf {x v : List Char} (hv : t.get? (String.ofList x) = some v) :
    ¬ IsWordOf x v := by
  intro hx
  exact Nat.lt_irrefl _ (hr x v hv x hx (by rw [hv]; rfl))

variable {cs : List Char} {ms : List (List Char × List Char)}

/-- A macro whose name is there changes the text: its name is no word of the value, so it is gone.
-/
theorem Ranked.not_isWordOf_of_same {x v : List Char} (hx : IsWordText x)
    (hv : t.get? (String.ofList x) = some v) (hsame : replaceWord x v cs = cs) :
    ¬ IsWordOf x cs := by
  intro hword
  rw [← hsame, isWordOf_replaceWord hx] at hword
  rcases hword with ⟨-, hne⟩ | ⟨-, hvalue⟩
  · exact hne rfl
  · exact hr.not_isWordOf hv hvalue

/-- A round that reports no change found none of its names. -/
theorem Ranked.of_round_same (hms : t.Among ms) (h : (round ms cs).2 = false) :
    (round ms cs).1 = cs ∧ ∀ x v, (x, v) ∈ ms → ¬ IsWordOf x cs := by
  obtain ⟨hlast, hsame⟩ := round_same h
  refine ⟨hlast, fun x v hx => ?_⟩
  obtain ⟨hword, hvalue⟩ := hms x v hx
  exact hr.not_isWordOf_of_same hword hvalue (hsame x v hx)

/-- A round replaces the names of the highest rank. The induction goes over the macros that are
still to be tried: a name of the highest rank in the text is one of them, since replacing brings in
names of lower rank only. -/
theorem Ranked.below_round {k : Nat} (hms : t.Among ms) (h : t.Below rank (k + 1) cs)
    (htop : ∀ x, IsWordOf x cs → (t.get? (String.ofList x)).isSome → rank x = k →
      ∃ v, (x, v) ∈ ms) : t.Below rank k (round ms cs).1 := by
  induction ms generalizing cs with
  | nil =>
    intro x hx hsome
    have hlt := h x hx hsome
    have hne : rank x ≠ k := by
      intro hk
      obtain ⟨v, hv⟩ := htop x hx hsome hk
      exact List.not_mem_nil hv
    omega
  | cons m ms ih =>
    obtain ⟨hname, hvalue⟩ := hms.head
    refine ih hms.tail ?_ ?_
    · intro x hx hsome
      rcases (isWordOf_replaceWord hname).mp hx with ⟨hx, -⟩ | ⟨hold, hx⟩
      · exact h x hx hsome
      · have hm := h m.1 hold (by rw [hvalue]; rfl)
        have := hr m.1 m.2 hvalue x hx hsome
        omega
    · intro x hx hsome hk
      rcases (isWordOf_replaceWord hname).mp hx with ⟨hx, hne⟩ | ⟨hold, hx⟩
      · obtain ⟨v, hv⟩ := htop x hx hsome hk
        rcases List.mem_cons.mp hv with rfl | hv
        · exact absurd rfl hne
        · exact ⟨v, hv⟩
      · have hm := h m.1 hold (by rw [hvalue]; rfl)
        have := hr m.1 m.2 hvalue x hx hsome
        omega

/-- Macros settle after as many rounds as there are ranks in the text, and one more. -/
theorem Ranked.settles (hms : t.Lists ms) {k rounds : Nat}
    (hrounds : k < rounds) (h : t.Below rank k cs) :
    ∃ out, settle ms rounds cs = some out ∧ t.Expands cs out ∧ t.Plain out := by
  induction rounds generalizing k cs with
  | zero => exact absurd hrounds (Nat.not_lt_zero k)
  | succ rounds ih =>
    rw [settle]
    rcases hround : round ms cs with ⟨new, changed⟩
    cases changed with
    | false =>
      have hflag : (round ms cs).2 = false := by rw [hround]
      obtain ⟨hsame, hnone⟩ := hr.of_round_same hms.among hflag
      have hplain : t.Plain cs := by
        intro x hx
        cases hv : t.get? (String.ofList x) with
        | none => rfl
        | some v => exact absurd hx (hnone x v ((hms.mem_iff x v).mpr hv))
      rw [hround] at hsame
      obtain rfl : new = cs := hsame
      exact ⟨new, rfl, hplain.expands, hplain⟩
    | true =>
      cases k with
      | zero =>
        rw [round_of_plain hms.among (plain_of_below_zero h)] at hround
        exact absurd (congrArg Prod.snd hround) Bool.false_ne_true
      | succ k =>
        have hnew : t.Below rank k new := by
          have := hr.below_round hms.among h fun x _ hsome _ => by
            obtain ⟨v, hv⟩ := Option.isSome_iff_exists.mp hsome
            exact ⟨v, (hms.mem_iff x v).mpr hv⟩
          rwa [hround] at this
        obtain ⟨out, hsettle, hexpands, hplain⟩ := ih (Nat.lt_of_succ_lt_succ hrounds) hnew
        refine ⟨out, hsettle, ?_, hplain⟩
        refine Expands.of_round hms.among ?_
        rw [hround]
        exact hexpands

end Ranked

/-- A text without defined names is settled. -/
theorem settle_of_plain (hms : t.Lists ms) (h : t.Plain cs) {rounds : Nat}
    (hrounds : 0 < rounds) : settle ms rounds cs = some cs := by
  cases rounds with
  | zero => contradiction
  | succ rounds => rw [settle, round_of_plain hms.among h]

/-- Macros that can be ranked settle on the full expansion of a line, after a number of rounds that
depends on the table alone. No defined name is a word of it, and expanding it again changes nothing.
A table with the same definitions, made by other lines or in another order, gives the same, in
whatever order its macros are tried. -/
theorem expand_full (t : Macros) (ht : t.Written) (hacyclic : t.Acyclic) :
    ∃ bound, ∀ line : List Char, ∃ out,
      (∀ rounds, bound ≤ rounds → t.expand? rounds line = some out) ∧
      t.Expands line out ∧ (∀ other, t.Expands line other → other = out) ∧
      (∀ x, IsWordOf x out → t.get? (String.ofList x) = none) ∧
      (∀ rounds, bound ≤ rounds → t.expand? rounds out = some out) ∧
      ∀ u : Macros, u.Written → (∀ x, u.get? x = t.get? x) → ∀ ms, ms.Perm u.order →
        ∀ rounds, bound ≤ rounds → settle ms rounds line = some out := by
  obtain ⟨rank, hr⟩ := hacyclic
  obtain ⟨k, hbelow⟩ := exists_below t rank
  refine ⟨k + 1, ?_⟩
  intro line
  have hlists : t.Lists t.order := ht.lists_order
  obtain ⟨out, -, hexpands, hplain⟩ := hr.settles hlists (Nat.lt_succ_self k) (hbelow line)
  have hsettle {ms : List (List Char × List Char)} (hms : t.Lists ms) (rounds : Nat)
      (hrounds : k + 1 ≤ rounds) :
      settle ms rounds line = some out := by
    obtain ⟨out', hsettle, hexpands', -⟩ := hr.settles hms hrounds (hbelow line)
    rw [hsettle, hexpands.unique hexpands']
  refine ⟨out, hsettle hlists, hexpands, fun other => hexpands.unique, hplain, ?_, ?_⟩
  · intro rounds hrounds
    exact settle_of_plain hlists hplain (by omega)
  · intro u hu hget ms hperm
    exact hsettle ((hu.lists_order.perm hperm).of_get? hget)

/-- A macro that stands twice in the value of another, one without a value, and a name that was
taken back. -/
def nestedMacros : Macros := ⟨[("A", "B+B".toList), ("B", "x".toList), ("NOP", [])]⟩

theorem nestedMacros_written : nestedMacros.Written := by
  have hA : Directive.define? "#define A B+B".toList = .ok (some (['A'], "B+B".toList)) := by rfl
  have hOld : Directive.define? " #define OLD 1".toList = .ok (some ("OLD".toList, ['1'])) := by rfl
  have hB : Directive.define? "#define B  x".toList = .ok (some (['B'], ['x'])) := by rfl
  have hNop : Directive.define? "#define NOP".toList = .ok (some ("NOP".toList, [])) := by rfl
  have hUndef : Directive.undef? "#undef OLD".toList = some "OLD".toList := by rfl
  exact (((Written.empty.define hA).define hOld).define hB |>.define hNop).undef hUndef

theorem nestedMacros_acyclic : nestedMacros.Acyclic := by
  refine ⟨fun x => if x = ['A'] then 1 else 0, ?_⟩
  intro x v hv y hy hsome
  have hmem : (String.ofList x, v) ∈ nestedMacros.entries := Table.mem_of_find? hv
  have hchunk : y ∈ chunks v := (isWordOf_iff_mem_chunks.mp hy).2
  simp only [nestedMacros, List.mem_cons, List.not_mem_nil, or_false, Prod.mk.injEq] at hmem
  rcases hmem with ⟨hx, rfl⟩ | ⟨-, rfl⟩ | ⟨-, rfl⟩
  · have hx : x = ['A'] := by rw [← String.toList_ofList (l := x), hx]; rfl
    rw [show chunks "B+B".toList = [['B'], ['+'], ['B']] by rfl] at hchunk
    have hy : y ≠ ['A'] := by
      rintro rfl
      exact absurd hchunk (by decide)
    show (if y = ['A'] then 1 else 0) < if x = ['A'] then 1 else 0
    rw [if_neg hy, if_pos hx]
    exact Nat.one_pos
  · rw [show chunks "x".toList = [['x']] by rfl, List.mem_singleton] at hchunk
    rw [hchunk] at hsome
    contradiction
  · exact absurd hchunk List.not_mem_nil

theorem nestedMacros_expands : nestedMacros.Expands "A NOP(A1)".toList "x+x (A1)".toList := by
  have hword (x : List Char) (hx : x.all isWordChar = true) (hne : x ≠ []) : IsWordText x :=
    ⟨hne, List.all_eq_true.mp hx⟩
  have hends (c : Char) (cs : List Char) (hc : isWordChar c = false) : EndsWord (c :: cs) :=
    endsWord_cons.mpr hc
  have hx : nestedMacros.Expands ['x'] ['x'] :=
    .word (hword ['x'] rfl (by decide)) endsWord_nil rfl .nil
  have hB {cs ds : List Char} (hcs : EndsWord cs) (h : nestedMacros.Expands cs ds) :
      nestedMacros.Expands ('B' :: cs) ('x' :: ds) :=
    .name (hword ['B'] rfl (by decide)) hcs rfl hx h
  have hsum : nestedMacros.Expands "B+B".toList "x+x".toList :=
    hB (hends '+' ['B'] rfl) (.other rfl (hB endsWord_nil .nil))
  have hrest : nestedMacros.Expands "(A1)".toList "(A1)".toList :=
    .other rfl (.word (hword ['A', '1'] rfl (by decide)) (hends ')' [] rfl) rfl (.other rfl .nil))
  have hnop : nestedMacros.Expands ("NOP".toList ++ "(A1)".toList) ([] ++ "(A1)".toList) :=
    .name (hword "NOP".toList rfl (by decide)) (hends '(' _ rfl) rfl .nil hrest
  exact .name (hword ['A'] rfl (by decide)) (hends ' ' _ rfl) rfl hsum (.other rfl hnop)

theorem nestedMacros_expand_full :
    nestedMacros.Written ∧ nestedMacros.Acyclic ∧
      ∃ bound, ∀ rounds, bound ≤ rounds →
      nestedMacros.expand? rounds "A NOP(A1)".toList = some "x+x (A1)".toList := by
  refine ⟨nestedMacros_written, nestedMacros_acyclic, ?_⟩
  obtain ⟨bound, hbound⟩ := expand_full nestedMacros nestedMacros_written nestedMacros_acyclic
  obtain ⟨out, hexpand, -, hunique, -⟩ := hbound "A NOP(A1)".toList
  refine ⟨bound, fun rounds hrounds => ?_⟩
  rw [hexpand rounds hrounds, hunique _ nestedMacros_expands]

end WordC.Macros
