import WordC.Asm.Instr
import WordC.Table
import WordC.Text.Digit
import WordC.Text.Numeral

/-!
# Where values live

Values on the way are held in temporaries, which are handed out in turn and never given back: one to
nine, then one twice. Variables take registers from eleven on, in the order in which they come, and
keep them. A name that reads like a register stands for that register unless it was given another
one.
-/

namespace WordC

open Asm

structure RegPool where
  allocated : Table Reg := {}
  nextTemp : Nat := 1

namespace RegPool

/-- The next temporary. -/
def temp (p : RegPool) : Reg × RegPool :=
  (if p.nextTemp = 0 then 1 else p.nextTemp, { p with nextTemp := (p.nextTemp + 1) % 10 })

/-- The first of the next `tries` temporaries that is not among those to avoid, or the one behind
them. -/
def tempAvoiding (avoid : List Reg) : (tries : Nat) → RegPool → Reg × RegPool
  | 0, p => p.temp
  | tries + 1, p =>
    let (r, p) := p.temp
    if r ∈ avoid then tempAvoiding avoid tries p else (r, p)

/-- The register of a variable, a new one if it has none; `none` when there is no register left. -/
def allocate? (p : RegPool) (x : String) : Option (Reg × RegPool) :=
  match p.allocated.get? x with
  | some r => some (r, p)
  | none =>
    let r := 11 + p.allocated.size
    if r > 30 then none else some (r, { p with allocated := p.allocated.set x r })

theorem temp_fst_pos (p : RegPool) : 1 ≤ p.temp.1 := by
  unfold temp
  split
  · exact Nat.le_refl 1
  · show 1 ≤ p.nextTemp
    omega

theorem temp_snd_lt (p : RegPool) : p.temp.2.nextTemp < 10 := Nat.mod_lt _ (by decide)

end RegPool

/-- The digits of a name that reads like a register. -/
def registerDigits? (x : String) : Option (List Char) :=
  match x.toList with
  | 'r' :: c :: cs => if (c :: cs).all Text.isDigit then some (c :: cs) else none
  | _ => none

end WordC
