import WordC.Stmt.Outline
import WordC.Stmt.Text
import WordC.Workload.Program

/-!
# Scanning and reading to measure

A large program is scanned, or scanned and read; besides it come small texts at which the scanner or
the reader stops. The number that comes out depends on all of the work: tokens are counted, and the
length of the tree's outline, and each text that is refused counts as one.
-/

namespace WordC.Workload

/-- Texts with characters and comments that are not in order, and a block without its end. -/
def oddTexts : List String :=
  ["1 @ 2", "a ? b", "x /* open", "/*", "", "asm \x7b nop"]

/-- The number of tokens of a text; a text that is refused counts as one. -/
def tokenCount (text : String) : Nat :=
  match scan text with
  | .ok ts => ts.length
  | .error _ => 1

def scanWork (functions : Nat) : Nat :=
  oddTexts.foldl (fun n t => n + tokenCount t) (tokenCount (program functions))

def scanParameter : Parameter := { name := "n_funcs", usual := 60, values := [15, 60, 200] }

/-- Programs that cannot be read. -/
def brokenTexts : List String :=
  ["function main( \x7b return 1; \x7d",
    "function main() \x7b return 1 \x7d",
    "function main() \x7b return 1;",
    "function main() \x7b uint32 = 1; \x7d",
    "function main() \x7b if 1 return 2; \x7d",
    "function main() \x7b do \x7b \x7d until (1); \x7d",
    "function main() \x7b a[0 = 1; \x7d",
    "function other() \x7b return 1; \x7d"]

/-- The length of the outline of a program; a program that is refused counts as one. -/
def outlineLength (text : String) : Nat :=
  match Program.ofText (ε := Empty) text with
  | .ok p => p.outline.length
  | .error _ => 1

def readWork (functions : Nat) : Nat :=
  brokenTexts.foldl (fun n t => n + outlineLength t) (outlineLength (program functions))

def readParameter : Parameter := { name := "n_funcs", usual := 30, values := [8, 30, 100] }

end WordC.Workload
