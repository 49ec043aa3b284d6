import WordC.Device
import WordC.Stmt.Basic

/-!
# Names that a function does not declare

A function uses names as variables, as arrays, as operands of an address, and as functions that it
calls. A name that no parameter and no declaration before it binds is free: where the function runs,
it means what the scopes around the call say. A declaration binds in the statements behind it in its
block, the head of a `for` binds in the rest of the loop; a declaration that is the whole body of a
branch or loop may or may not run and binds nothing.
-/

namespace WordC

/-- What an expression or a statement may ask of the scopes and functions around it. -/
inductive Use where
  | var (x : String)
  | array (a : String)
  /-- The address of a variable or of an array. -/
  | address (x : String)
  | func (f : String)
  /-- A cell, by its address. -/
  | pointer
  deriving DecidableEq, Repr

namespace Use

/-- Whether declarations settle a use. An address is that of a variable or of an array. -/
def bound (B : List Use) : Use → Bool
  | var x => var x ∈ B
  | array a => array a ∈ B
  | address x => var x ∈ B ∨ array x ∈ B
  | func _ => false
  | pointer => false

/-- The uses that declarations leave open. -/
def unbound (B : List Use) (us : List Use) : List Use := us.filter fun u => !u.bound B

end Use

/-! ### Expressions -/

namespace Expr

mutual

def uses : Expr → List Use
  | literal _ => []
  | name x => [.var x]
  | call f args => (if (DeviceFunction.ofName? f).isSome then [] else [.func f]) ++ usesAll args
  | index a i => .array a :: uses i
  | addressOf (name x) => [.address x]
  | addressOf (index a i) => .address a :: uses i
  | addressOf e => uses e
  | deref e => .pointer :: uses e
  | unary _ e => uses e
  | binary _ l r => uses l ++ uses r
  | foreignUnary _ e => uses e
  | foreignBinary _ l r => uses l ++ uses r
  | hole => []

def usesAll : List Expr → List Use
  | [] => []
  | e :: es => uses e ++ usesAll es

end

/-- The uses of an expression that may be left out. -/
def usesOf (e : Option Expr) : List Use := (e.map uses).getD []

end Expr

/-! ### Statements -/

namespace Decl

def binding : Decl → Use
  | var d => .var d.name
  | array d => .array d.name
  | pointer d => .var d.name

/-- The initial values of an array may use the array, those of a variable come before it. -/
def free (B : List Use) : Decl → List Use
  | var d => Use.unbound B (Expr.usesOf d.init)
  | array d => Use.unbound (.array d.name :: B) (Expr.usesAll (d.init.getD []))
  | pointer d => Use.unbound B (Expr.usesOf d.init)

end Decl

namespace ForInit

def uses : ForInit → List Use
  | declare d => Expr.usesOf d.init
  | assign x e => .var x :: e.uses

def bindings : ForInit → List Use
  | declare d => [.var d.name]
  | assign _ _ => []

end ForInit

namespace ForStep

def uses : ForStep → List Use
  | increment x _ => [.var x]
  | decrement x _ => [.var x]
  | assign x e => .var x :: e.uses

end ForStep

namespace Stmt

/-- What is declared once a statement has run. -/
def bindings : Stmt → List Use
  | decl d => [d.binding]
  | _ => []

/-- What the head of a `for` declares. -/
def headBindings (init : Option ForInit) : List Use := (init.map ForInit.bindings).getD []

mutual

/-- The uses that stay open in a statement behind the declarations `B`. -/
def free (B : List Use) : Stmt → List Use
  | decl d => d.free B
  | assign x e => Use.unbound B (.var x :: e.uses)
  | assignIndex a i e => Use.unbound B (.array a :: (i.uses ++ e.uses))
  | assignDeref p e => .pointer :: Use.unbound B (p.uses ++ e.uses)
  | ret e => Use.unbound B (Expr.usesOf e)
  | ifThen c s => Use.unbound B c.uses ++ free B s
  | ifElse c s t => Use.unbound B c.uses ++ (free B s ++ free B t)
  | whileLoop c s => Use.unbound B c.uses ++ free B s
  | doWhile s c => Use.unbound B c.uses ++ free B s
  | forLoop init c step s =>
    Use.unbound B ((init.map ForInit.uses).getD []) ++
      (Use.unbound (headBindings init ++ B) (Expr.usesOf c ++ (step.map ForStep.uses).getD []) ++
        free (headBindings init ++ B) s)
  | block ss => freeAll B ss
  | call e => Use.unbound B e.uses
  | increment x _ => Use.unbound B [.var x]
  | decrement x _ => Use.unbound B [.var x]
  | breakLoop => []
  | continueLoop => []
  | asm _ => []
  | hole => []

def freeAll (B : List Use) : List Stmt → List Use
  | [] => []
  | s :: ss => free B s ++ freeAll (s.bindings ++ B) ss

end

end Stmt

/-! ### Functions -/

namespace Func

def bindings (f : Func) : List Use := f.params.map .var

/-- The uses that a function leaves open. -/
def free (f : Func) : List Use := Stmt.freeAll f.bindings f.body

end Func

/-- A call of `f` may run `g`. -/
inductive Program.Reaches (p : Program) (f : Func) : Func → Prop
  | self : Reaches p f f
  | call {g h : Func} {name : String} :
      Reaches p f g → .func name ∈ g.free → p.function? name = some h → Reaches p f h

/-- A parameter and a declaration bind, the branch that may not run does not, and the head of a loop
binds in the loop only. -/
example :
    ({ name := "f", params := ["x"], body :=
        [.decl (.var { name := "y", init := some (.name "x") }), .ifThen (.name "y")
          (.decl (.var { name := "z" })), .forLoop (some (.declare { name := "i" }))
          (some (.name "i")) none (.assign "z" (.call "g" [.index "a" (.name "i")])),
          .ret (some (.binary .add (.name "x") (.name "i")))] } : Func).free =
      [.var "z", .func "g", .array "a", .var "i"] := by decide +kernel

end WordC
