import WordC.Token.Basic

/-!
# Expressions

The tree of an expression. Operators are closed sets, each with the symbol that spells it, and the
binary ones fall into ten levels of precedence. Two further forms hold an operator that is none of
the language, so that running or compiling such a node can name it, and a hole stands for an
expression that is not there.
-/

namespace WordC

inductive UnaryOp where
  | logicalNot | complement | negate
  deriving DecidableEq, Repr

def UnaryOp.text : UnaryOp → String
  | logicalNot => "!"
  | complement => "~"
  | negate => "-"

def UnaryOp.ofText? : String → Option UnaryOp
  | "!" => some logicalNot
  | "~" => some complement
  | "-" => some negate
  | _ => none

inductive BinOp where
  | add | sub | mul | div | mod | bitAnd | bitOr | bitXor | shiftLeft | shiftRight
  | equal | notEqual | less | lessEqual | greater | greaterEqual | logicalAnd | logicalOr
  deriving DecidableEq, Repr

namespace BinOp

def symbol : BinOp → Symbol
  | add => .plus
  | sub => .minus
  | mul => .star
  | div => .slash
  | mod => .percent
  | bitAnd => .amp
  | bitOr => .bar
  | bitXor => .caret
  | shiftLeft => .shiftLeft
  | shiftRight => .shiftRight
  | equal => .equal
  | notEqual => .notEqual
  | less => .less
  | lessEqual => .lessEqual
  | greater => .greater
  | greaterEqual => .greaterEqual
  | logicalAnd => .andAnd
  | logicalOr => .orOr

def text (op : BinOp) : String := op.symbol.text

/-- The levels of precedence, the weakest first. Operators of one level group to the left. -/
def levels : List (List BinOp) :=
  [[logicalOr], [logicalAnd], [bitOr], [bitXor], [bitAnd], [equal, notEqual],
   [less, lessEqual, greater, greaterEqual], [shiftLeft, shiftRight], [add, sub], [mul, div, mod]]

def all : List BinOp := levels.flatten

theorem mem_all (op : BinOp) : op ∈ all := by cases op <;> decide

def ofText? (s : String) : Option BinOp := all.find? fun op => op.text == s

end BinOp

inductive Expr where
  | literal (value : Nat)
  | name (x : String)
  | call (f : String) (args : List Expr)
  | index (array : String) (position : Expr)
  | addressOf (operand : Expr)
  | deref (operand : Expr)
  | unary (op : UnaryOp) (operand : Expr)
  | binary (op : BinOp) (left right : Expr)
  | foreignUnary (op : String) (operand : Expr)
  | foreignBinary (op : String) (left right : Expr)
  | hole

namespace Expr

/-- The unary node of an operator text, which need not be one of the language. -/
def ofUnary (op : String) (operand : Expr) : Expr :=
  match UnaryOp.ofText? op with
  | some u => unary u operand
  | none => foreignUnary op operand

/-- The binary node of an operator text, which need not be one of the language. -/
def ofBinary (op : String) (left right : Expr) : Expr :=
  match BinOp.ofText? op with
  | some b => binary b left right
  | none => foreignBinary op left right

/-- The word that messages use for the form of an expression. -/
def form : Expr → String
  | literal _ => "Literal"
  | name _ => "Identifier"
  | call _ _ => "FunctionCall"
  | index _ _ => "ArrayAccess"
  | addressOf _ => "AddressOf"
  | deref _ => "Dereference"
  | unary _ _ | foreignUnary _ _ => "UnaryOp"
  | binary _ _ _ | foreignBinary _ _ _ => "BinaryOp"
  | hole => "Expression"

mutual

/-- The tree of an expression as text. -/
def outline : Expr → String
  | literal n => "Literal(" ++ toString n ++ ")"
  | name x => "Identifier(" ++ x ++ ")"
  | call f args => "FunctionCall(" ++ f ++ ", [" ++ outlines args ++ "])"
  | index a i => "ArrayAccess(" ++ a ++ ", " ++ outline i ++ ")"
  | addressOf e => "AddressOf(" ++ outline e ++ ")"
  | deref e => "Dereference(" ++ outline e ++ ")"
  | unary op e => "UnaryOp(" ++ op.text ++ ", " ++ outline e ++ ")"
  | binary op l r => "BinaryOp(" ++ op.text ++ ", " ++ outline l ++ ", " ++ outline r ++ ")"
  | foreignUnary op e => "UnaryOp(" ++ op ++ ", " ++ outline e ++ ")"
  | foreignBinary op l r => "BinaryOp(" ++ op ++ ", " ++ outline l ++ ", " ++ outline r ++ ")"
  | hole => "Expression()"

def outlines : List Expr → String
  | [] => ""
  | [e] => outline e
  | e :: es => outline e ++ ", " ++ outlines es

end

end Expr

end WordC
