import Mathlib.Logic.Relation
import WordC.Proofs.MacroExpansion
import WordC.Proofs.StepLaws
import WordC.Source.Include

/-!
# Steps of gathering

Whatever a run gathers, it does so by three kinds of steps: a line of some file defines a macro, a
line takes one back, or a file that is not yet among those included is taken up. What holds of a
state and is kept by these steps holds of every state that a run leads to, also of a run that ends
in an error.
-/

namespace WordC

/-! ### Lines of files -/

/-- A line that starts, behind white space, with the word of a directive. -/
def Directive.IsLine (word : String) (cs : List Char) : Prop :=
  word.toList.isPrefixOf (Text.trim cs) = true

/-- A line of a file of the tree. -/
def Files.HasLine (w : Files) (cs : List Char) : Prop :=
  ∃ a text, w.tree.read w.cwd a = .ok text ∧ cs ∈ Text.pieces text

/-- No file of the tree defines a macro. -/
def Files.Undefining (w : Files) : Prop := ∀ cs, w.HasLine cs → ¬ Directive.IsLine "#define" cs

theorem Directive.isLine_of_define? {cs x v : List Char} (h : define? cs = .ok (some (x, v))) :
    IsLine "#define" cs := by
  unfold define? rest? at h
  unfold IsLine
  by_cases hword : "#define".toList.isPrefixOf (Text.trim cs) = true
  · exact hword
  · rw [if_neg hword] at h
    cases h

/-! ### Steps -/

namespace Gathered

/-- Takes a path up. -/
def take (g : Gathered) (a : String) : Gathered := { g with included := g.included ++ [a] }

theorem take_base (g : Gathered) (a : String) : (g.take a).base = g.base := rfl

theorem take_macros (g : Gathered) (a : String) : (g.take a).macros = g.macros := rfl

theorem mem_take {g : Gathered} {a c : String} :
    c ∈ (g.take a).included ↔ c ∈ g.included ∨ c = a := by
  rw [take, List.mem_append, List.mem_singleton]

/-- What a step can do to what has been gathered. -/
inductive Step (w : Files) (g : Gathered) : Gathered → Prop
  | define {cs x v : List Char} : w.HasLine cs → Directive.define? cs = .ok (some (x, v)) →
      Step w g { g with macros := g.macros.set (String.ofList x) v }
  | undef {cs x : List Char} : w.HasLine cs → Directive.undef? cs = some x →
      Step w g { g with macros := g.macros.erase (String.ofList x) }
  | take {p : String} {text : List Char} :
      w.absolute p ∉ g.included → w.tree.read w.cwd (w.absolute p) = .ok text →
      Step w g (g.take (w.absolute p))

/-- Any number of steps. -/
def Leads (w : Files) : Gathered → Gathered → Prop := Relation.ReflTransGen (Step w)

variable {w : Files} {g g' : Gathered}

theorem Leads.base (h : Leads w g g') : g'.base = g.base := by
  induction h with
  | refl => rfl
  | tail _ hstep ih => cases hstep <;> exact ih

theorem Leads.written (h : Leads w g g') (hg : g.macros.Written) : g'.macros.Written := by
  induction h with
  | refl => exact hg
  | tail _ hstep ih =>
    cases hstep with
    | define _ hdefine => exact ih.define hdefine
    | undef _ hundef => exact ih.undef hundef
    | take _ _ => exact ih

/-- Without definitions there are no macros. -/
theorem Leads.macros (hw : w.Undefining) (h : Leads w g g') (hg : g.macros = {}) :
    g'.macros = {} := by
  induction h with
  | refl => exact hg
  | tail _ hstep ih =>
    cases hstep with
    | define hline hdefine => exact absurd (Directive.isLine_of_define? hdefine) (hw _ hline)
    | undef _ _ =>
      rw [ih]
      rfl
    | take _ _ => exact ih

/-- What is included stays, and no path is taken up twice. -/
theorem Leads.included (h : Leads w g g') :
    ∃ visited, g'.included = g.included ++ visited ∧ visited.Nodup ∧
      ∀ a ∈ visited, a ∉ g.included ∧ ∃ p text, a = w.absolute p ∧
      w.tree.read w.cwd a = .ok text := by
  induction h with
  | refl =>
    exact ⟨[], (List.append_nil _).symm, List.nodup_nil, fun a ha => absurd ha List.not_mem_nil⟩
  | tail _ hstep ih =>
    obtain ⟨visited, hincluded, hnodup, hvisited⟩ := ih
    cases hstep with
    | define _ _ => exact ⟨visited, hincluded, hnodup, hvisited⟩
    | undef _ _ => exact ⟨visited, hincluded, hnodup, hvisited⟩
    | @take p text hnew hread =>
      rw [hincluded, List.mem_append, not_or] at hnew
      refine ⟨visited ++ [w.absolute p], ?_, ?_, ?_⟩
      · show _ ++ [w.absolute p] = _
        rw [hincluded, List.append_assoc]
      · rw [List.nodup_append]
        refine ⟨hnodup, List.nodup_cons.mpr ⟨List.not_mem_nil, List.nodup_nil⟩, ?_⟩
        rintro a ha b hb rfl
        rw [List.mem_singleton.mp hb] at ha
        exact hnew.2 ha
      · intro a ha
        rcases List.mem_append.mp ha with ha | ha
        · exact hvisited a ha
        · rw [List.mem_singleton.mp ha]
          exact ⟨hnew.1, p, text, rfl, hread⟩

end Gathered

/-! ### How a run ends -/

namespace Gather

variable {α β : Type}

/-- A run from a state ends with a value and a state of one kind, or with an error and a state of
another. -/
structure Ends (m : Gather α) (g : Gathered) (value : α → Gathered → Prop)
    (error : SourceError → Gathered → Prop) : Prop where
  ok : ∀ a g', m g = (.ok a, g') → value a g'
  failed : ∀ e g', m g = (.error e, g') → error e g'

variable {g : Gathered} {value : α → Gathered → Prop} {error : SourceError → Gathered → Prop}

variable {m : Gather α}

theorem ends_of_ok {a : α} {g' : Gathered} (h : m g = (.ok a, g')) (hvalue : value a g') :
    m.Ends g value error := by
  refine ⟨?_, ?_⟩
  · intro b g'' hb
    obtain ⟨heq, rfl⟩ := Prod.mk.inj (h.symm.trans hb)
    cases heq
    exact hvalue
  · intro e g'' he
    cases congrArg Prod.fst (h.symm.trans he)

theorem ends_of_error {e : SourceError} {g' : Gathered} (h : m g = (.error e, g'))
    (herror : error e g') : m.Ends g value error := by
  refine ⟨?_, ?_⟩
  · intro a g'' ha
    cases congrArg Prod.fst (h.symm.trans ha)
  · intro e' g'' he
    obtain ⟨heq, rfl⟩ := Prod.mk.inj (h.symm.trans he)
    cases heq
    exact herror

theorem Ends.ok_fst (h : m.Ends g value error) {a : α} (ha : (m g).1 = .ok a) : value a (m g).2 :=
  h.ok a (m g).2 (Prod.ext ha rfl)

theorem Ends.failed_fst (h : m.Ends g value error) {e : SourceError} (he : (m g).1 = .error e) :
    error e (m g).2 :=
  h.failed e (m g).2 (Prod.ext he rfl)

theorem Ends.or (h : m.Ends g value error) :
    (∃ a, (m g).1 = .ok a ∧ value a (m g).2) ∨ ∃ e, (m g).1 = .error e ∧ error e (m g).2 := by
  rcases hm : m g with ⟨e | a, g'⟩
  · exact .inr ⟨e, rfl, h.failed e g' hm⟩
  · exact .inl ⟨a, rfl, h.ok a g' hm⟩

theorem Ends.mono {value' : α → Gathered → Prop} {error' : SourceError → Gathered → Prop}
    (h : m.Ends g value error) (hvalue : ∀ a g', value a g' → value' a g')
    (herror : ∀ e g', error e g' → error' e g') : m.Ends g value' error' :=
  ⟨fun a g' ha => hvalue a g' (h.ok a g' ha), fun e g' he => herror e g' (h.failed e g' he)⟩

theorem Ends.bind {f : α → Gather β} {last : β → Gathered → Prop}
    (h : m.Ends g (fun a g' => (f a).Ends g' last error) error) : (m >>= f).Ends g last error := by
  rcases hm : m g with ⟨e | a, g'⟩
  · exact ends_of_error (Step.bind_error hm) (h.failed e g' hm)
  · have hf := h.ok a g' hm
    refine ⟨?_, ?_⟩
    · intro b g'' hb
      rw [Step.bind_ok hm] at hb
      exact hf.ok b g'' hb
    · intro e g'' he
      rw [Step.bind_ok hm] at he
      exact hf.failed e g'' he

theorem adapt_apply (change : SourceError → SourceError) (m : Gather α) (g : Gathered) :
    (ExceptT.adapt change m : Gather α) g = ((m g).1.mapError change, (m g).2) := rfl

theorem Ends.adapt {change : SourceError → SourceError}
    (h : m.Ends g value fun e g' => error (change e) g') :
    Ends (ExceptT.adapt change m) g value error := by
  rcases hm : m g with ⟨e | a, g'⟩
  · refine ends_of_error ?_ (h.failed e g' hm)
    rw [adapt_apply, hm]
    rfl
  · refine ends_of_ok ?_ (h.ok a g' hm)
    rw [adapt_apply, hm]
    rfl

/-- How a run ends depends on its outcome only. -/
theorem Ends.congr {m' : Gather α} (heq : m g = m' g) (h : m'.Ends g value error) :
    m.Ends g value error :=
  ⟨fun a g' ha => h.ok a g' (heq ▸ ha), fun e g' he => h.failed e g' (heq ▸ he)⟩

/-! ### Taking up a file -/

section Taking

variable {w : Files} {rounds : Nat} {file : String → Gather (List (List Char))} {p : String}

theorem fileAt_succ (w : Files) (rounds depth : Nat) (p : String) :
    fileAt w rounds (depth + 1) p = fileWith w rounds (fileAt w rounds depth) p := rfl

theorem fileWith_circular (h : w.absolute p ∈ g.included) :
    fileWith w rounds file p g = (.error (.circular (w.absolute p)), g) := by
  rw [fileWith, Step.bind_ok (Step.get_apply g), if_pos h]
  rfl

theorem fileWith_missing (h : w.absolute p ∉ g.included)
    (hcontains : w.contains (w.absolute p) = false) :
    fileWith w rounds file p g = (.error (.missing (w.absolute p)), g) := by
  rw [fileWith, Step.bind_ok (Step.get_apply g), if_neg h, hcontains]
  rfl

theorem fileWith_unreadable (h : w.absolute p ∉ g.included)
    (hcontains : w.contains (w.absolute p) = true) {e : FileError}
    (hread : w.tree.read w.cwd (w.absolute p) = .error e) :
    fileWith w rounds file p g = (.error (.unreadable (w.absolute p) e), g) := by
  rw [fileWith, Step.bind_ok (Step.get_apply g), if_neg h, hcontains, hread]
  rfl

theorem exists_place_of_read {a : String} {text : List Char} (h : w.tree.read w.cwd a = .ok text) :
    ∃ q bytes cs, w.tree.locate? w.cwd a = some q ∧ w.tree.entry? q = some (.file bytes) ∧
    Text.decode bytes = .ok cs ∧
      text = Text.lineFeeds cs := by
  unfold FileTree.read at h
  split at h
  · contradiction
  · contradiction
  · next bytes hbytes =>
    obtain ⟨q, hq, hentry⟩ := Option.bind_eq_some_iff.mp hbytes
    split at h
    · next cs hcs => exact ⟨q, bytes, cs, hq, hentry, hcs, (Except.ok.inj h).symm⟩
    · contradiction

theorem contains_of_read {a : String} {text : List Char} (h : w.tree.read w.cwd a = .ok text) :
    w.contains a = true := by
  obtain ⟨q, _, _, hq, -⟩ := exists_place_of_read h
  rw [Files.contains, FileTree.contains, hq]
  rfl

theorem fileWith_read (h : w.absolute p ∉ g.included) {text : List Char}
    (hread : w.tree.read w.cwd (w.absolute p) = .ok text) : fileWith w rounds file p g =
      contentWith w rounds file (some (Path.directory (w.absolute p))) text
      (g.take (w.absolute p)) := by
  rw [fileWith, Step.bind_ok (Step.get_apply g), if_neg h, contains_of_read hread, hread]
  rfl

end Taking

/-! ### Every run is made of steps -/

section Leading

variable {w : Files}

/-- A run that is made of steps, from whatever state. -/
def Leading (w : Files) (m : Gather α) : Prop := ∀ g, Gathered.Leads w g (m g).2

variable {m : Gather α} {file : String → Gather (List (List Char))}

/-- A run made of steps leads from state to state, besides what is known of its end. -/
theorem Ends.leads (h : m.Ends g value error) (hm : Leading w m) :
    m.Ends g (fun a g' => Gathered.Leads w g g' ∧ value a g') error := by
  refine ⟨fun a g' ha => ⟨?_, h.ok a g' ha⟩, h.failed⟩
  have hleads := hm g
  rwa [ha] at hleads

theorem leading_pure (a : α) : Leading w (pure a : Gather α) := fun _ => .refl

theorem leading_throw (e : SourceError) : Leading w (throw e : Gather α) := fun _ => .refl

theorem leading_get : Leading w (get : Gather Gathered) := fun _ => .refl

theorem leading_modify {change : Gathered → Gathered} (h : ∀ g, Gathered.Step w g (change g)) :
    Leading w (modify change : Gather PUnit) := fun g => .single (h g)

theorem Leading.bind {f : α → Gather β} (hm : Leading w m) (hf : ∀ a, Leading w (f a)) :
    Leading w (m >>= f) := by
  intro g
  rw [Step.bind_apply]
  have hfirst := hm g
  rcases hrun : m g with ⟨e | a, g'⟩
  · rw [hrun] at hfirst
    exact hfirst
  · rw [hrun] at hfirst
    exact hfirst.trans (hf a g')

theorem Leading.adapt (hm : Leading w m) (change : SourceError → SourceError) :
    Leading w (ExceptT.adapt change m : Gather α) := hm

theorem leading_resolve (dir : Option String) (name : String) : Leading w (resolve w dir name) := by
  unfold resolve
  split
  · exact leading_pure name
  · refine leading_get.bind fun g => ?_
    split
    · exact leading_pure _
    · exact leading_throw _

theorem leading_expand (rounds : Nat) (cs : List Char) : Leading w (expand rounds cs) := by
  refine leading_get.bind fun g => ?_
  split
  · exact leading_pure _
  · exact leading_throw _

theorem leading_line (rounds : Nat) (hfile : ∀ p, Leading w (file p)) (dir : Option String)
    (n : Nat) {cs : List Char} (hcs : w.HasLine cs) : Leading w (line w rounds file dir n cs) := by
  unfold line
  dsimp only
  split
  · split
    · next hdefine =>
        exact (leading_modify fun g => .define hcs hdefine).bind fun _ => leading_pure _
    · exact leading_pure _
    · exact leading_throw _
  split
  · split
    · next hundef => exact (leading_modify fun g => .undef hcs hundef).bind fun _ => leading_pure _
    · exact leading_pure _
  split
  · split
    · exact leading_throw _
    · exact leading_throw _
    · next name _ _ =>
      refine Leading.bind (Leading.adapt ?_ _) fun inner => leading_pure _
      exact (leading_resolve dir _).bind hfile
  · exact (leading_expand rounds cs).bind fun _ => leading_pure _

theorem leading_linesFrom (rounds : Nat) (hfile : ∀ p, Leading w (file p)) (dir : Option String)
    {ls : List (List Char)} (hls : ∀ cs ∈ ls, w.HasLine cs) (n : Nat) (done : List (List Char)) :
    Leading w (linesFrom w rounds file dir n done ls) := by
  induction ls generalizing n done with
  | nil => exact leading_pure _
  | cons cs ls ih =>
    refine (leading_line rounds hfile dir n (hls cs List.mem_cons_self)).bind fun new => ?_
    exact ih (fun ds hds => hls ds (List.mem_cons_of_mem cs hds)) (n + 1) _

theorem leading_fileWith (rounds : Nat) (hfile : ∀ p, Leading w (file p)) (p : String) :
    Leading w (fileWith w rounds file p) := by
  intro g
  by_cases hnew : w.absolute p ∈ g.included
  · rw [fileWith_circular hnew]
    exact .refl
  cases hread : w.tree.read w.cwd (w.absolute p) with
  | error e =>
    cases hcontains : w.contains (w.absolute p) with
    | false =>
      rw [fileWith_missing hnew hcontains]
      exact .refl
    | true =>
      rw [fileWith_unreadable hnew hcontains hread]
      exact .refl
  | ok text =>
    rw [fileWith_read hnew hread]
    refine Relation.ReflTransGen.head (.take hnew hread) ?_
    exact leading_linesFrom rounds hfile _ (fun cs hcs => ⟨_, text, hread, hcs⟩) 1 [] _

theorem leading_fileAt (w : Files) (rounds depth : Nat) (p : String) :
    Leading w (fileAt w rounds depth p) := by
  induction depth generalizing p with
  | zero => exact leading_throw _
  | succ depth ih => exact leading_fileWith rounds ih p

theorem mainFile_apply (w : Files) (rounds : Nat) (p : String)
    (g : Gathered) : mainFile w rounds p g =
    fileAt w rounds (depth w) p { base := Path.directory (w.absolute p) } := by
  have hset (fresh : Gathered) : (set fresh : Gather PUnit) g = (.ok ⟨⟩, fresh) := rfl
  rw [mainFile, Step.bind_ok (hset _), file]

end Leading

end Gather

end WordC
