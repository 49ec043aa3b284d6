import WordC.Scope.Chain

/-!
# Trees of scopes

Scopes numbered in the order in which they were opened, each with the number of the scope around it.
The chain of a scope goes from it to the outermost one; a change to a chain is a change to the
scopes it consists of.
-/

namespace WordC

structure ScopeTree (τ : Type) where
  nodes : Array (Scope τ × Option Nat) := #[({}, none)]

namespace ScopeTree

variable {τ : Type}

/-- Opens a scope inside another one and gives its number. -/
def insert (t : ScopeTree τ) (parent : Option Nat) : Nat × ScopeTree τ :=
  (t.nodes.size, ⟨t.nodes.push ({}, parent)⟩)

/-- The numbers of a scope and of those around it. A scope is opened after the one around it, so no
way out is longer than the number of scopes. -/
def pathFrom (t : ScopeTree τ) : (fuel : Nat) → Nat → List Nat
  | 0, _ => []
  | fuel + 1, n =>
    match t.nodes[n]? with
    | some (_, some parent) => n :: pathFrom t fuel parent
    | some (_, none) => [n]
    | none => []

def path (t : ScopeTree τ) (n : Nat) : List Nat := t.pathFrom t.nodes.size n

def chain (t : ScopeTree τ) (n : Nat) : Chain τ :=
  (t.path n).filterMap fun i => t.nodes[i]?.map (·.1)

/-- Puts the scopes of a changed chain back. -/
def setChain (t : ScopeTree τ) (n : Nat) (c : Chain τ) : ScopeTree τ :=
  ⟨((t.path n).zip c).foldl (fun nodes (i, s) => nodes.modify i fun node => (s, node.2)) t.nodes⟩

/-- The scope of a number itself. -/
def scope (t : ScopeTree τ) (n : Nat) : Scope τ := ((t.nodes[n]?).map (·.1)).getD {}

def modifyScope (t : ScopeTree τ) (n : Nat) (f : Scope τ → Scope τ) : ScopeTree τ :=
  ⟨t.nodes.modify n fun node => (f node.1, node.2)⟩

end ScopeTree

end WordC
