import WordC.Table
import WordC.Word

/-!
# Scopes

A scope holds variables, each with a tag for its type, and arrays. A variable gets a cell when its
address is first asked for, an array gets consecutive cells when it is declared; both take them from
one counter that starts at 1000 in every scope. The tag is a parameter: running a program tags
variables with their word type.
-/

namespace WordC

inductive ScopeError where
  | undefinedVariable (x : String)
  | undefinedArray (a : String)
  | undefinedName (x : String)
  | outOfBounds (a : String) (index : Int) (size : Nat)
  | arraySize (size : Int)
  | noAddress (a : String)
  | badAddress (address : Int)
  deriving DecidableEq, Repr

def ScopeError.message : ScopeError → String
  | undefinedVariable x => "Undefined variable: " ++ x
  | undefinedArray a => "Undefined array: " ++ a
  | undefinedName x => "Undefined variable or array: " ++ x
  | outOfBounds a i size =>
    "Array index out of bounds: " ++ a ++ "[" ++ toString i ++ "], size=" ++ toString size
  | arraySize n => "Array size must be positive, got " ++ toString n
  | noAddress a => "Array " ++ a ++ " has no assigned address"
  | badAddress n => "Invalid memory address: " ++ toString n

structure Scope (τ : Type) where
  vars : Table Int := {}
  types : Table τ := {}
  arrays : Table (Array Int) := {}
  /-- The cells of the variables whose address was asked for. -/
  cells : Table Int := {}
  /-- The first cells of the arrays. -/
  bases : Table Int := {}
  nextCell : Int := 1000

namespace Scope

variable {τ : Type}

/-- Sets a variable and leaves its tag as it is. -/
def setVar (s : Scope τ) (x : String) (v : Int) : Scope τ :=
  { s with vars := s.vars.set x (Word.wrap v) }

def declare (s : Scope τ) (x : String) (v : Int) (t : τ) : Scope τ :=
  { s with vars := s.vars.set x (Word.wrap v), types := s.types.set x t }

/-- Declares an array of zeros and gives its first cell. -/
def declareArray (s : Scope τ) (a : String) (size : Int) : Except ScopeError (Int × Scope τ) :=
  if size ≤ 0 then .error (.arraySize size)
  else .ok (s.nextCell,
    { s with
      arrays := s.arrays.set a (Array.replicate size.toNat 0)
      bases := s.bases.set a s.nextCell
      nextCell := s.nextCell + size })

/-- The first variable that owns a cell. -/
def variableAt? (s : Scope τ) (address : Int) : Option String :=
  (s.cells.entries.find? fun e => e.2 == address).map (·.1)

/-- The first array with a cell at the address, its elements and the place among them. -/
def elementAt? (s : Scope τ) (address : Int) : Option (String × Array Int × Nat) :=
  s.bases.entries.findSome? fun (a, base) =>
    match s.arrays.get? a with
    | some elements =>
      if base ≤ address ∧ address < base + elements.size
        then some (a, elements, (address - base).toNat) else none
    | none => none

/-- The cell of a variable of this scope, a new one if it has none yet. -/
def variableCell (s : Scope τ) (x : String) : Int × Scope τ :=
  match s.cells.get? x with
  | some cell => (cell, s)
  | none => (s.nextCell, { s with cells := s.cells.set x s.nextCell, nextCell := s.nextCell + 1 })

end Scope

end WordC
