import WordC.Scope.Basic

/-!
# Chains of scopes

The scopes that are open at one time, the innermost first. A name means what the first scope that
has it says; an address belongs to the first scope that has a cell of that number, and as every
scope counts its cells from the same start, scopes of one chain can have cells of equal numbers.
-/

namespace WordC

abbrev Chain (τ : Type) := List (Scope τ)

namespace Chain

variable {τ : Type}

/-! ### Variables -/

def get : Chain τ → String → Except ScopeError Int
  | [], x => .error (.undefinedVariable x)
  | s :: rest, x =>
    match s.vars.get? x with
    | some v => .ok v
    | none => get rest x

def typeOf? : Chain τ → String → Option τ
  | [], _ => none
  | s :: rest, x =>
    match s.types.get? x with
    | some t => some t
    | none => typeOf? rest x

/-- Assigns to the first variable of the name; a tag that is given replaces its tag. -/
def assign : Chain τ → String → Int → Option τ → Except ScopeError (Chain τ)
  | [], x, _, _ => .error (.undefinedVariable x)
  | s :: rest, x, v, t =>
    if s.vars.contains x then
      match t with
      | some t => .ok (s.declare x v t :: rest)
      | none => .ok (s.setVar x v :: rest)
    else do
      return s :: (← assign rest x v t)

/-! ### Arrays -/

def checkIndex (a : String) (elements : Array Int) (i : Int) : Except ScopeError Nat :=
  if i < 0 ∨ (elements.size : Int) ≤ i then .error (.outOfBounds a i elements.size) else .ok i.toNat

def element : Chain τ → String → Int → Except ScopeError Int
  | [], a, _ => .error (.undefinedArray a)
  | s :: rest, a, i =>
    match s.arrays.get? a with
    | some elements => do return Word.wrap (elements.getD (← checkIndex a elements i) 0)
    | none => element rest a i

def setElement : Chain τ → String → Int → Int → Except ScopeError (Chain τ)
  | [], a, _, _ => .error (.undefinedArray a)
  | s :: rest, a, i, v =>
    match s.arrays.get? a with
    | some elements => do
      let place ← checkIndex a elements i
      return { s with
        arrays := s.arrays.set a (elements.setIfInBounds place (Word.wrap v)) } :: rest
    | none => do return s :: (← setElement rest a i v)

/-! ### Addresses -/

/-- The address of a variable or array. A variable without a cell gets one. -/
def address : Chain τ → String → Except ScopeError (Int × Chain τ)
  | [], x => .error (.undefinedName x)
  | s :: rest, x =>
    if s.vars.contains x then
      let (cell, s) := s.variableCell x
      .ok (cell, s :: rest)
    else if s.arrays.contains x then
      match s.bases.get? x with
      | some base => .ok (base, s :: rest)
      | none => .error (.noAddress x)
    else do
      let (cell, rest) ← address rest x
      return (cell, s :: rest)

def load : Chain τ → Int → Except ScopeError Int
  | [], a => .error (.badAddress a)
  | s :: rest, a =>
    match s.variableAt? a with
    | some x => .ok (Word.wrap ((s.vars.get? x).getD 0))
    | none =>
      match s.elementAt? a with
      | some (_, elements, i) => .ok (Word.wrap (elements.getD i 0))
      | none => load rest a

def store : Chain τ → Int → Int → Except ScopeError (Chain τ)
  | [], a, _ => .error (.badAddress a)
  | s :: rest, a, v =>
    match s.variableAt? a with
    | some x => .ok (s.setVar x v :: rest)
    | none =>
      match s.elementAt? a with
      | some (name, elements, i) =>
        .ok ({ s with
          arrays := s.arrays.set name (elements.setIfInBounds i (Word.wrap v)) } :: rest)
      | none => do return s :: (← store rest a v)

end Chain

end WordC
