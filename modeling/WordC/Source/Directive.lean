import WordC.Text.Space

/-!
# Directives

A line that starts, behind white space, with `#define`, `#undef` or `#include` is a directive. A
macro name is a plain identifier of Latin letters, digits and underscores; what stands behind it is
its value. An included file is named in double quotes or angle brackets.
-/

namespace WordC

inductive DefineError where
  | missingName
  | badName (rest : List Char)
  deriving DecidableEq, Repr

def DefineError.message : DefineError → String
  | missingName => "Invalid #define: missing macro name"
  | badName rest =>
    "Invalid #define: invalid macro name in '" ++ String.ofList (rest.take 20) ++ "...'"

namespace Directive

def isMacroStart (c : Char) : Bool := c.isAlpha || c == '_'

def isMacroChar (c : Char) : Bool := c.isAlphanum || c == '_'

/-- What stands behind a directive's word on a trimmed line. -/
def rest? (word : String) (trimmed : List Char) : Option (List Char) :=
  if word.toList.isPrefixOf trimmed then some (Text.trim (trimmed.drop word.length)) else none

/-- The macro name that a text starts with, and what is behind it. -/
def macroName? : List Char → Option (List Char × List Char)
  | [] => none
  | c :: cs =>
    if isMacroStart c then some (c :: cs.takeWhile isMacroChar, cs.dropWhile isMacroChar) else none

/-- The name and the value that a line defines; `none` for a line that is no definition. -/
def define? (line : List Char) : Except DefineError (Option (List Char × List Char)) :=
  match rest? "#define" (Text.trim line) with
  | none => .ok none
  | some [] => .error .missingName
  | some rest =>
    match macroName? rest with
    | none => .error (.badName rest)
    | some (name, value) => .ok (some (name, Text.trim value))

/-- The name that a line takes back. -/
def undef? (line : List Char) : Option (List Char) :=
  (rest? "#undef" (Text.trim line)).bind fun rest => (macroName? rest).map (·.1)

/-- A text without its first and last character, if these are the given ones. -/
def between? (left right : Char) (cs : List Char) : Option (List Char) :=
  if cs.head? = some left ∧ cs.getLast? = some right then some (cs.drop 1).dropLast else none

/-- The file name behind the eight characters of an include directive. -/
def includeName? (line : List Char) : Option (List Char) :=
  let rest := Text.trim (line.drop 8)
  between? '"' '"' rest <|> between? '<' '>' rest

end Directive

end WordC
