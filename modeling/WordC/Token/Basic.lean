import WordC.Text.Quoted

/-!
# Tokens

A token is a kind, the text it was read from and the place where that text starts. Keywords and
symbols are closed sets and carry their spelling, so a token of such a kind is determined by its
kind; names, numbers and raw assembly blocks carry text of their own.
-/

namespace WordC

/-! ### Keywords -/

inductive Keyword where
  | uint32 | int32 | function | doKw | forKw | whileKw | ifKw | elseKw | returnKw | breakKw
  | continueKw
  | register | volatile | interrupt | asm
  deriving DecidableEq, Repr

namespace Keyword

def text : Keyword → String
  | uint32 => "uint32"
  | int32 => "int32"
  | function => "function"
  | doKw => "do"
  | forKw => "for"
  | whileKw => "while"
  | ifKw => "if"
  | elseKw => "else"
  | returnKw => "return"
  | breakKw => "break"
  | continueKw => "continue"
  | register => "register"
  | volatile => "volatile"
  | interrupt => "interrupt"
  | asm => "asm"

/-- The word that messages use for the keyword. -/
def name : Keyword → String
  | uint32 => "UINT32"
  | int32 => "INT32"
  | function => "FUNCTION"
  | doKw => "DO"
  | forKw => "FOR"
  | whileKw => "WHILE"
  | ifKw => "IF"
  | elseKw => "ELSE"
  | returnKw => "RETURN"
  | breakKw => "BREAK"
  | continueKw => "CONTINUE"
  | register => "REGISTER"
  | volatile => "VOLATILE"
  | interrupt => "INTERRUPT"
  | asm => "ASM"

def all : List Keyword :=
  [uint32, int32, function, doKw, forKw, whileKw, ifKw, elseKw, returnKw, breakKw, continueKw,
   register, volatile, interrupt, asm]

theorem mem_all (k : Keyword) : k ∈ all := by cases k <;> decide

def ofText? (s : String) : Option Keyword := all.find? fun k => k.text == s

end Keyword

/-! ### Symbols -/

inductive Symbol where
  | plus | minus | star | slash | percent | assign | equal | notEqual | less | lessEqual | greater
  | greaterEqual
  | andAnd | orOr | bang | amp | bar | caret | shiftLeft | shiftRight | plusPlus | minusMinus
  | semicolon | comma | leftParen | rightParen | leftBrace | rightBrace | leftBracket | rightBracket
  deriving DecidableEq, Repr

namespace Symbol

def text : Symbol → String
  | plus => "+"
  | minus => "-"
  | star => "*"
  | slash => "/"
  | percent => "%"
  | assign => "="
  | equal => "=="
  | notEqual => "!="
  | less => "<"
  | lessEqual => "<="
  | greater => ">"
  | greaterEqual => ">="
  | andAnd => "&&"
  | orOr => "||"
  | bang => "!"
  | amp => "&"
  | bar => "|"
  | caret => "^"
  | shiftLeft => "<<"
  | shiftRight => ">>"
  | plusPlus => "++"
  | minusMinus => "--"
  | semicolon => ";"
  | comma => ","
  | leftParen => "("
  | rightParen => ")"
  | leftBrace => "\x7b"
  | rightBrace => "\x7d"
  | leftBracket => "["
  | rightBracket => "]"

def name : Symbol → String
  | plus => "PLUS"
  | minus => "MINUS"
  | star => "MULTIPLY"
  | slash => "DIVIDE"
  | percent => "MODULO"
  | assign => "ASSIGN"
  | equal => "EQUAL"
  | notEqual => "NOT_EQUAL"
  | less => "LESS"
  | lessEqual => "LESS_EQUAL"
  | greater => "GREATER"
  | greaterEqual => "GREATER_EQUAL"
  | andAnd => "AND"
  | orOr => "OR"
  | bang => "NOT"
  | amp => "BITWISE_AND"
  | bar => "BITWISE_OR"
  | caret => "BITWISE_XOR"
  | shiftLeft => "SHIFT_LEFT"
  | shiftRight => "SHIFT_RIGHT"
  | plusPlus => "INCREMENT"
  | minusMinus => "DECREMENT"
  | semicolon => "SEMICOLON"
  | comma => "COMMA"
  | leftParen => "LPAREN"
  | rightParen => "RPAREN"
  | leftBrace => "LBRACE"
  | rightBrace => "RBRACE"
  | leftBracket => "LBRACKET"
  | rightBracket => "RBRACKET"

def all : List Symbol :=
  [plus, minus, star, slash, percent, assign, equal, notEqual, less, lessEqual,
    greater, greaterEqual,
   andAnd, orOr, bang, amp, bar, caret, shiftLeft, shiftRight, plusPlus, minusMinus,
   semicolon, comma, leftParen, rightParen, leftBrace, rightBrace, leftBracket, rightBracket]

theorem mem_all (s : Symbol) : s ∈ all := by cases s <;> decide

/-- The symbol spelled by two characters. -/
def ofPair? : Char → Char → Option Symbol
  | '=', '=' => some equal
  | '!', '=' => some notEqual
  | '<', '<' => some shiftLeft
  | '>', '>' => some shiftRight
  | '<', '=' => some lessEqual
  | '>', '=' => some greaterEqual
  | '&', '&' => some andAnd
  | '|', '|' => some orOr
  | '+', '+' => some plusPlus
  | '-', '-' => some minusMinus
  | _, _ => none

/-- The symbol spelled by one character. -/
def ofChar? : Char → Option Symbol
  | '+' => some plus
  | '-' => some minus
  | '*' => some star
  | '/' => some slash
  | '%' => some percent
  | '=' => some assign
  | '<' => some less
  | '>' => some greater
  | '!' => some bang
  | '&' => some amp
  | '|' => some bar
  | '^' => some caret
  | ';' => some semicolon
  | ',' => some comma
  | '(' => some leftParen
  | ')' => some rightParen
  | '\x7b' => some leftBrace
  | '\x7d' => some rightBrace
  | '[' => some leftBracket
  | ']' => some rightBracket
  | _ => none

end Symbol

/-! ### Kinds and tokens -/

inductive Kind where
  | keyword (k : Keyword)
  | symbol (s : Symbol)
  | identifier
  | literal
  | asmBlock
  | endOfInput
  | error
  deriving DecidableEq, Repr

namespace Kind

def name : Kind → String
  | keyword k => k.name
  | symbol s => s.name
  | identifier => "IDENTIFIER"
  | literal => "LITERAL"
  | asmBlock => "ASM_BLOCK"
  | endOfInput => "EOF"
  | error => "ERROR"

def all : List Kind :=
  Keyword.all.map keyword ++ Symbol.all.map symbol ++
    [identifier, literal, asmBlock, endOfInput, error]

theorem mem_all (k : Kind) : k ∈ all := by
  cases k with
  | keyword k => simp [all, Keyword.mem_all]
  | symbol s => simp [all, Symbol.mem_all]
  | _ => simp [all]

def ofName? (s : String) : Option Kind := all.find? fun k => k.name == s

end Kind

/-- A place in a text. Lines and columns count from one. -/
structure Position where
  line : Nat := 1
  column : Nat := 1
  deriving DecidableEq, Repr

namespace Position

/-- The place behind a character. -/
def step (p : Position) (c : Char) : Position :=
  if c = '\n' then ⟨p.line + 1, 1⟩ else ⟨p.line, p.column + 1⟩

/-- The place behind a stretch of text. -/
def through (p : Position) (cs : List Char) : Position := cs.foldl step p

theorem through_nil (p : Position) : p.through [] = p := rfl

theorem through_cons (p : Position) (c : Char) (cs : List Char) :
    p.through (c :: cs) = (p.step c).through cs := rfl

theorem through_append (p : Position) (cs ds : List Char) :
    p.through (cs ++ ds) = (p.through cs).through ds := List.foldl_append

end Position

structure Token where
  kind : Kind
  text : String
  position : Position
  deriving DecidableEq, Repr

namespace Token

def line (t : Token) : Nat := t.position.line

def column (t : Token) : Nat := t.position.column

/-- Two tokens agree when kind and text agree, wherever they stand. -/
def agrees (t u : Token) : Bool := t.kind == u.kind && t.text == u.text

/-- How messages show a token. -/
def describe (t : Token) : String :=
  "Token(" ++ t.kind.name ++ ", " ++ Text.quote t.text ++ ", line=" ++ toString t.line ++
    ", col=" ++ toString t.column ++ ")"

end Token

end WordC
