import WordC.Text.Letter
import WordC.Text.Numeral
import WordC.Token.Basic

/-!
# Scanning

A text is cut into pieces from the left: blanks and comments, which are skipped, and tokens.
`Piece.front` looks at the text from its first character on and says which piece starts there and
how far it reaches; `scanFrom` walks over the text one character at a time, keeps the position and
asks for the next piece where the last one ended.

A comment that is never closed ends the token list with an error token. A raw assembly block that is
never closed gives no token list at all.
-/

namespace WordC

open Text

/-- The characters that separate tokens. -/
def isBlank (c : Char) : Bool := c == ' ' || c == '\t' || c == '\r' || c == '\n'

def isNameStart (c : Char) : Bool := isLetter c || c == '_'

/-- A character of a word: it may stand inside a name. -/
def isWordChar (c : Char) : Bool := isLetter c || isNumeric c || c == '_'

/-! ### Pieces -/

/-- What starts at a character. The number counts the further characters that belong to the piece.
-/
inductive Piece where
  | skip (more : Nat)
  | token (kind : Kind) (more : Nat)
  /-- The word `asm`, some blanks, an opening brace, `size` characters and the closing brace. -/
  | asmBlock (blanks size : Nat)
  | unknown
  | openComment
  | openAsm (blanks : Nat)
  deriving DecidableEq, Repr

/-- The length of a text up to and with the first `*/`, added to `n`. -/
def commentLength? (n : Nat) : List Char → Option Nat
  | [] => none
  | '*' :: '/' :: _ => some (n + 2)
  | _ :: cs => commentLength? (n + 1) cs

/-- The length of a raw assembly block up to its closing brace, added to `n`. `depth` counts the
open inner braces. The character behind an inner closing brace belongs to the block, whatever it is.
-/
def asmLength? (depth n : Nat) : List Char → Option Nat
  | [] => none
  | '\x7b' :: cs => asmLength? (depth + 1) (n + 1) cs
  | '\x7d' :: cs =>
    match depth, cs with
    | 0, _ => some n
    | _ + 1, [] => none
    | depth + 1, _ :: cs => asmLength? depth (n + 2) cs
  | _ :: cs => asmLength? depth (n + 1) cs

namespace Piece

def spanLength (p : Char → Bool) (cs : List Char) : Nat := (cs.takeWhile p).length

/-- A word: a keyword or a name, or the start of a raw assembly block. -/
def word (c : Char) (cs : List Char) : Piece :=
  let more := spanLength isWordChar cs
  match Keyword.ofText? (String.ofList (c :: cs.take more)) with
  | some .asm =>
    let rest := cs.drop more
    let blanks := spanLength isBlank rest
    match rest.drop blanks with
    | '\x7b' :: body =>
      match asmLength? 0 0 body with
      | some size => asmBlock blanks size
      | none => openAsm blanks
    | _ => token (.keyword .asm) more
  | some k => token (.keyword k) more
  | none => token .identifier more

/-- A number: hexadecimal behind `0x`, else a run of digits. -/
def number (c : Char) (cs : List Char) : Piece :=
  match c, cs with
  | '0', 'x' :: ds => token .literal (spanLength isHexDigit ds + 1)
  | '0', 'X' :: ds => token .literal (spanLength isHexDigit ds + 1)
  | _, ds => token .literal (spanLength isDigit ds)

/-- A symbol, the longer of two that fit. -/
def sign (c : Char) (cs : List Char) : Piece :=
  match cs.head?.bind (Symbol.ofPair? c) with
  | some s => token (.symbol s) 1
  | none =>
    match Symbol.ofChar? c with
    | some s => token (.symbol s) 0
    | none => unknown

/-- The piece at the front of the text `c :: cs`. -/
def front (c : Char) (cs : List Char) : Piece :=
  if isBlank c then skip 0
  else match c, cs with
    | '/', '/' :: ds => skip (spanLength (· != '\n') ds + 1)
    | '/', '*' :: ds =>
      match commentLength? 0 ds with
      | some n => skip (n + 1)
      | none => openComment
    | _, _ =>
      if isNameStart c then word c cs
      else if isDigit c then number c cs
      else sign c cs

end Piece

/-! ### The walk over the text -/

inductive ScanError where
  /-- A raw assembly block without its closing brace; the place is behind the opening one. -/
  | openAsm (start : Position)
  deriving DecidableEq, Repr

def ScanError.message : ScanError → String
  | openAsm p => s!"Unterminated asm block at line {p.line}, column {p.column}"

def Token.endOfInput (p : Position) : Token := ⟨.endOfInput, "", p⟩

def Token.unknownChar (c : Char) (p : Position) : Token :=
  ⟨.error, "Unexpected character: " ++ String.singleton c, p⟩

def Token.openComment (p : Position) : Token :=
  ⟨.error, s!"Unterminated comment at line {p.line}, column {p.column}", p⟩

/-- Scans a text that starts at `p`, of whose first piece `pending` characters are still to be
passed. `done` holds the tokens so far, the last one first. -/
def scanFrom (done : List Token) (p : Position) :
    (pending : Nat) → List Char → Except ScanError (List Token)
  | _, [] => .ok (Token.endOfInput p :: done).reverse
  | pending + 1, c :: cs => scanFrom done (p.step c) pending cs
  | 0, c :: cs =>
    match Piece.front c cs with
    | .skip more => scanFrom done (p.step c) more cs
    | .token kind more =>
      scanFrom (⟨kind, String.ofList (c :: cs.take more), p⟩ :: done) (p.step c) more cs
    | .asmBlock blanks size =>
      let opening := c :: cs.take (blanks + 3)
      let body := (cs.drop (blanks + 3)).take size
      scanFrom (⟨.asmBlock, String.ofList body, p.through opening⟩ ::
        ⟨.keyword .asm, Keyword.asm.text, p⟩ :: done) (p.step c) (blanks + 3 + size + 1) cs
    | .unknown => scanFrom (Token.unknownChar c p :: done) (p.step c) 0 cs
    | .openComment => .ok (Token.openComment (p.through (c :: cs)) :: done).reverse
    | .openAsm blanks => .error (.openAsm (p.through (c :: cs.take (blanks + 3))))

/-- The tokens of a text. -/
def scan (source : String) : Except ScanError (List Token) := scanFrom [] {} 0 source.toList

end WordC
