import WordC.Expr.Basic
import WordC.Text.Numeral
import WordC.Token.Cursor

/-!
# Reading expressions

The reader follows the levels of precedence: a chain of operators of one level over operands of the
next, signs in front over an indexed primary, and a primary that is a number, a name, a call or a
parenthesised expression. Each part is given the reader of whole expressions, and `exprAt` closes
the circle. Every inner expression stands behind a token of its own, so a bound of one more than the
number of tokens ahead is never reached.
-/

namespace WordC

namespace Parse

/-- The operator of a level that a token spells. -/
def levelOp? (level : List BinOp) (t : Token) : Option BinOp :=
  level.find? fun op => t.kind = .symbol op.symbol

/-- Goes on with operators of one level behind the operand `left`. -/
def chain (level : List BinOp) (operand : Parse Expr) : (fuel : Nat) → (left : Expr) → Parse Expr
  | 0, _ => throw .tooDeep
  | fuel + 1, left => do
    match (← current?).bind (levelOp? level) with
    | some op =>
      let _ ← advance
      let right ← operand
      chain level operand fuel (.binary op left right)
    | none => return left

/-- An expression of the given levels over operands read by `operand`. -/
def binary (fuel : Nat) (operand : Parse Expr) : (levels : List (List BinOp)) → Parse Expr
  | [] => operand
  | level :: tighter => do
    let left ← binary fuel operand tighter
    chain level (binary fuel operand tighter) fuel left

/-- The node that a sign in front of an operand makes. -/
def signOf? : Kind → Option (Expr → Expr)
  | .symbol .amp => some .addressOf
  | .symbol .star => some .deref
  | .symbol .bang => some (.unary .logicalNot)
  | .symbol .minus => some (.unary .negate)
  | _ => none

/-- Signs in front of an operand. -/
def signed (operand : Parse Expr) : (fuel : Nat) → Parse Expr
  | 0 => throw .tooDeep
  | fuel + 1 => do
    match (← kind?).bind signOf? with
    | some node =>
      let _ ← advance
      return node (← signed operand fuel)
    | none => operand

/-- Indices behind an expression. Only a name can be indexed; of several indices the last one
counts. -/
def indexed (expr : Parse Expr) : (fuel : Nat) → (base : Expr) → Parse Expr
  | 0, _ => throw .tooDeep
  | fuel + 1, base => do
    if (← accept (.symbol .leftBracket)) then
      let position ← expr
      symbol .rightBracket
      match base with
      | .name x => indexed expr fuel (.index x position)
      | .index x _ => indexed expr fuel (.index x position)
      | _ => throw (.indexOfNonName ((← current?).map Token.line))
    else
      return base

def literal (t : Token) : Parse Expr := do
  let _ ← advance
  match Text.literal? t.text with
  | some n => return .literal n
  | none => throw (.badLiteral t)

/-- A name, or a call when a parenthesis follows. -/
def nameOrCall (fuel : Nat) (expr : Parse Expr) (x : String) : Parse Expr := do
  let _ ← advance
  if (← accept (.symbol .leftParen)) then
    return .call x (← itemsUntil fuel expr .rightParen)
  else
    return .name x

def primary (fuel : Nat) (expr : Parse Expr) : Parse Expr := do
  match (← current?) with
  | none => throw (.unexpectedEnd .expression)
  | some t =>
    match t.kind with
    | .literal => literal t
    | .identifier => nameOrCall fuel expr t.text
    | .symbol .leftParen =>
      let _ ← advance
      let e ← expr
      symbol .rightParen
      return e
    | _ => throw (.unexpectedToken .expression t)

/-- An expression, given the reader of the expressions inside it. -/
def exprWith (fuel : Nat) (expr : Parse Expr) : Parse Expr :=
  binary fuel (signed (do indexed expr fuel (← primary fuel expr)) fuel) BinOp.levels

/-- An expression in which at most `fuel` others are nested. -/
def exprAt : (fuel : Nat) → Parse Expr
  | 0 => throw .tooDeep
  | fuel + 1 => exprWith (fuel + 1) (exprAt fuel)

/-- A bound that no reader reaches from the cursor. -/
def bound : Parse Nat := do return (← get).ahead.length + 1

def expr : Parse Expr := do exprAt (← bound)

end Parse

end WordC
