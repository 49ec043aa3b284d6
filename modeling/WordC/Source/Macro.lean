import WordC.Table
import WordC.Token.Scan

/-!
# Macros

A text is cut into words, the longest runs of letters, digits and underscores, and the single
characters between them. A macro replaces every word that is its name. The macros are tried one
after another, longer names first and of two equally long names the one defined first, and the round
is repeated until none of them finds its name.
-/

namespace WordC

/-- Names with their replacements. -/
abbrev Macros := Table (List Char)

namespace Macros

/-- Adds a word, held backwards, to the chunks; the empty word is none. -/
def closeWord (done : List (List Char)) (word : List Char) : List (List Char) :=
  if word.isEmpty then done else word.reverse :: done

/-- Cuts a text, with the chunks so far last one first, and the open word backwards. -/
def chunksFrom (done : List (List Char)) (word : List Char) : List Char → List (List Char)
  | [] => (closeWord done word).reverse
  | c :: cs =>
    if isWordChar c then chunksFrom done (c :: word) cs
    else chunksFrom ([c] :: closeWord done word) [] cs

/-- The words of a text and the single characters between them. -/
def chunks (cs : List Char) : List (List Char) := chunksFrom [] [] cs

/-- Replaces every word that is the name. -/
def replaceWord (name value cs : List Char) : List Char :=
  (chunks cs).flatMap fun w => if w = name then value else w

/-- The macros in the order in which they are tried. -/
def order (t : Macros) : List (List Char × List Char) :=
  (t.entries.mergeSort fun a b => decide (b.1.length ≤ a.1.length)).map fun e => (e.1.toList, e.2)

/-- Tries each macro once, and says whether one of them changed the text. -/
def round : List (List Char × List Char) → List Char → List Char × Bool
  | [], cs => (cs, false)
  | (name, value) :: ms, cs =>
    let new := replaceWord name value cs
    let (last, changed) := round ms new
    (last, decide (new ≠ cs) || changed)

/-- Repeats rounds until one changes nothing; `none` when that does not happen within the given
number of rounds. -/
def settle (ms : List (List Char × List Char)) : (rounds : Nat) → List Char → Option (List Char)
  | 0, _ => none
  | rounds + 1, cs =>
    match round ms cs with
    | (new, true) => settle ms rounds new
    | (new, false) => some new

/-- The text with all macros replaced. -/
def expand? (t : Macros) (rounds : Nat) (cs : List Char) : Option (List Char) :=
  settle t.order rounds cs

/-! ### Nothing is lost between the chunks -/

theorem flatten_closeWord (done : List (List Char)) (word : List Char) :
    (closeWord done word).reverse.flatten = done.reverse.flatten ++ word.reverse := by
  unfold closeWord
  split
  · simp_all
  · simp

theorem flatten_chunksFrom (cs : List Char) (done : List (List Char)) (word : List Char) :
    (chunksFrom done word cs).flatten = done.reverse.flatten ++ word.reverse ++ cs := by
  induction cs generalizing done word with
  | nil => simp [chunksFrom, flatten_closeWord]
  | cons c cs ih =>
    unfold chunksFrom
    split
    · simp [ih]
    · rw [ih]
      simp [flatten_closeWord]

theorem flatten_chunks (cs : List Char) : (chunks cs).flatten = cs := by
  simp [chunks, flatten_chunksFrom]

end Macros

end WordC
