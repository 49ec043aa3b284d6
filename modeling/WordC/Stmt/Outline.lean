import WordC.Stmt.Basic
import WordC.Text.Quoted

/-!
# Statements and programs as text

The tree of a statement, function or program written out node by node. Attributes of a declaration
stand behind its parts, and only when they differ from the plain declaration.
-/

namespace WordC

def outlineOption (e : Option Expr) : String :=
  match e with
  | some e => e.outline
  | none => "None"

def outlineAttributes (attributes : List String) : String :=
  String.join (attributes.map (", " ++ ·))

def VarDecl.outline (d : VarDecl) : String :=
  let attributes :=
    (if d.type = .uint32 then [] else ["type=" ++ d.type.text]) ++
    (match d.register with
      | some r => ["register=" ++ toString r.val]
      | none => []) ++
    (if d.volatile then ["volatile"] else [])
  let init := match d.init with
    | some e => ", " ++ e.outline
    | none => ""
  "VarDecl(" ++ d.name ++ init ++ outlineAttributes attributes ++ ")"

def flagAttributes (register volatile : Bool) : String :=
  outlineAttributes
    ((if register then ["register"] else []) ++ (if volatile then ["volatile"] else []))

/-- An empty list of initial values is not shown. -/
def ArrayDecl.outline (d : ArrayDecl) : String :=
  let init := match d.init with
    | some (e :: es) => ", [" ++ Expr.outlines (e :: es) ++ "]"
    | _ => ""
  "ArrayDecl(" ++ d.name ++ ", " ++ d.size.outline ++ init ++
    flagAttributes d.register d.volatile ++ ")"

def PointerDecl.outline (d : PointerDecl) : String :=
  let init := match d.init with
    | some e => ", " ++ e.outline
    | none => ""
  "PointerDecl(" ++ d.name ++ init ++ flagAttributes d.register d.volatile ++ ")"

def Decl.outline : Decl → String
  | var d => d.outline
  | array d => d.outline
  | pointer d => d.outline

def outlineSide (before : Bool) : String := if before then "prefix" else "postfix"

def outlineAssign (x : String) (value : Expr) : String :=
  "Assignment(" ++ x ++ ", " ++ value.outline ++ ")"

def outlineIncrement (x : String) (before : Bool) : String :=
  "Increment(" ++ x ++ ", " ++ outlineSide before ++ ")"

def outlineDecrement (x : String) (before : Bool) : String :=
  "Decrement(" ++ x ++ ", " ++ outlineSide before ++ ")"

def ForInit.outline : ForInit → String
  | declare d => d.outline
  | assign x value => outlineAssign x value

def ForStep.outline : ForStep → String
  | increment x before => outlineIncrement x before
  | decrement x before => outlineDecrement x before
  | assign x value => outlineAssign x value

namespace Stmt

mutual

def outline : Stmt → String
  | decl d => d.outline
  | assign x value => outlineAssign x value
  | assignIndex a i value =>
    "ArrayAssignment(" ++ a ++ ", " ++ i.outline ++ ", " ++ value.outline ++ ")"
  | assignDeref p value => "PointerAssignment(" ++ p.outline ++ ", " ++ value.outline ++ ")"
  | ret value => "Return(" ++ outlineOption value ++ ")"
  | ifThen c s => "IfStmt(" ++ c.outline ++ ", " ++ outline s ++ ", None)"
  | ifElse c s t => "IfStmt(" ++ c.outline ++ ", " ++ outline s ++ ", " ++ outline t ++ ")"
  | whileLoop c s => "WhileStmt(" ++ c.outline ++ ", " ++ outline s ++ ")"
  | doWhile s c => "DoWhileStmt(" ++ outline s ++ ", " ++ c.outline ++ ")"
  | forLoop init c step s =>
    "ForStmt(" ++ (init.map ForInit.outline).getD "None" ++ ", " ++ outlineOption c ++ ", " ++
      (step.map ForStep.outline).getD "None" ++ ", " ++ outline s ++ ")"
  | block ss => "Block([" ++ outlines ss ++ "])"
  | call e => "FunctionCallStmt(" ++ e.outline ++ ")"
  | increment x before => outlineIncrement x before
  | decrement x before => outlineDecrement x before
  | breakLoop => "BreakStmt()"
  | continueLoop => "ContinueStmt()"
  | asm text => "AsmStmt(" ++ Text.quote text ++ ")"
  | hole => "Statement()"

def outlines : List Stmt → String
  | [] => ""
  | [s] => outline s
  | s :: ss => outline s ++ ", " ++ outlines ss

end

end Stmt

def Func.outline (f : Func) : String :=
  "FunctionDef(" ++ f.name ++ ", [" ++ ", ".intercalate (f.params.map Text.quote) ++ "], " ++
    (Stmt.block f.body).outline ++ (if f.interrupt then ", interrupt" else "") ++ ")"

def Program.outline (p : Program) : String :=
  "Program([" ++ ", ".intercalate (p.functions.map Func.outline) ++ "], globals=[" ++
    ", ".intercalate (p.globals.map Decl.outline) ++ "])"

end WordC
