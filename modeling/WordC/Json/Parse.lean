import WordC.Json.Basic
import WordC.Number.Rounding

/-!
# Reading JSON

A reader takes the text from a place on and gives a value with the place behind it. Errors name the
place at which something else was expected.
-/

namespace WordC.Json

inductive SyntaxFault where
  | value
  | property
  | colon
  | comma
  | extra
  | openString
  | control
  | escape
  | unicodeEscape
  deriving DecidableEq, Repr

structure ReadError where
  fault : SyntaxFault
  place : Nat
  deriving DecidableEq, Repr

def SyntaxFault.text : SyntaxFault → String
  | value => "Expecting value"
  | property => "Expecting property name enclosed in double quotes"
  | colon => "Expecting ':' delimiter"
  | comma => "Expecting ',' delimiter"
  | extra => "Extra data"
  | openString => "Unterminated string starting at"
  | control => "Invalid control character at"
  | escape => "Invalid \\escape"
  | unicodeEscape => "Invalid \\uXXXX escape"

/-- Names the place on the only line of a text. -/
def ReadError.message (e : ReadError) : String :=
  e.fault.text ++ ": line 1 column " ++ toString (e.place + 1) ++ " (char " ++
    toString e.place ++ ")"

/-- What is left to read, and the place at which it starts. -/
structure Rest where
  chars : List Char
  place : Nat

namespace Rest

def drop (r : Rest) (n : Nat) : Rest := ⟨r.chars.drop n, r.place + n⟩

def isBlank (c : Char) : Bool := c == ' ' || c == '\t' || c == '\n' || c == '\r'

def skipBlanks (r : Rest) : Rest := r.drop (r.chars.takeWhile isBlank).length

def fail {α : Type} (r : Rest) (fault : SyntaxFault) : Except ReadError α := .error ⟨fault, r.place⟩

end Rest

/-! ### Strings -/

def hexValue? (c : Char) : Option Nat :=
  if '0' ≤ c ∧ c ≤ '9' then some (c.toNat - 48)
  else if 'a' ≤ c ∧ c ≤ 'f' then some (c.toNat - 87)
  else if 'A' ≤ c ∧ c ≤ 'F' then some (c.toNat - 55)
  else none

/-- The number that four hexadecimal digits write. -/
def hexFour? : List Char → Option Nat
  | a :: b :: c :: d :: _ =>
    [a, b, c, d].foldl (fun n x => n.bind fun n => (hexValue? x).map (n * 16 + ·)) (some 0)
  | _ => none

/-- The character of an escape of one letter. -/
def escaped? : Char → Option Char
  | '"' => some '"'
  | '\\' => some '\\'
  | '/' => some '/'
  | 'b' => some '\x08'
  | 'f' => some '\x0c'
  | 'n' => some '\n'
  | 'r' => some '\r'
  | 't' => some '\t'
  | _ => none

/-- Reads a string from behind its opening quote, which stood at `start`; `done` holds its
characters backwards. -/
def readStringFrom (start : Nat) :
    (fuel : Nat) → (done : List Char) → Rest → Except ReadError (String × Rest)
  | 0, _, _ => .error ⟨.openString, start⟩
  | fuel + 1, done, r =>
    match r.chars with
    | [] => .error ⟨.openString, start⟩
    | '"' :: _ => .ok (String.ofList done.reverse, r.drop 1)
    | '\\' :: 'u' :: cs =>
      match hexFour? cs, cs.drop 4 with
      | none, _ => (r.drop 1).fail .unicodeEscape
      | some hi, '\\' :: 'u' :: low =>
        match hexFour? low with
        | some lo =>
          if 0xd800 ≤ hi ∧ hi < 0xdc00 ∧ 0xdc00 ≤ lo ∧ lo < 0xe000 then
            readStringFrom start fuel
              (Char.ofNat (0x10000 + (hi - 0xd800) * 0x400 + (lo - 0xdc00)) :: done) (r.drop 12)
          else readStringFrom start fuel (Char.ofNat hi :: done) (r.drop 6)
        | none => readStringFrom start fuel (Char.ofNat hi :: done) (r.drop 6)
      | some n, _ => readStringFrom start fuel (Char.ofNat n :: done) (r.drop 6)
    | ['\\'] => .error ⟨.openString, start⟩
    | '\\' :: c :: _ =>
      match escaped? c with
      | some e => readStringFrom start fuel (e :: done) (r.drop 2)
      | none => r.fail .escape
    | c :: _ =>
      if c.toNat < 32 then r.fail .control else readStringFrom start fuel (c :: done) (r.drop 1)

def readString (r : Rest) : Except ReadError (String × Rest) :=
  readStringFrom (r.place - 1) (r.chars.length + 1) [] r

/-! ### Numbers -/

def natOfDigits (ds : List Char) : Nat := ds.foldl (fun n d => n * 10 + (d.toNat - 48)) 0

/-- The digits that a text starts with. -/
def digits (cs : List Char) : List Char := cs.takeWhile Char.isDigit

/-- The fraction behind an integer: its digits, and how long it is with its point. -/
def fraction : List Char → List Char × Nat
  | '.' :: cs => if (digits cs).isEmpty then ([], 0) else (digits cs, (digits cs).length + 1)
  | _ => ([], 0)

/-- The exponent behind a number, and how long it is with its letter and sign. -/
def exponent : List Char → Int × Nat
  | e :: cs =>
    if e = 'e' ∨ e = 'E' then
      let (sign, signLength) : Int × Nat := match cs with
        | '-' :: _ => (-1, 1)
        | '+' :: _ => (1, 1)
        | _ => (1, 0)
      let ds := digits (cs.drop signLength)
      if ds.isEmpty then (0, 0) else (sign * natOfDigits ds, 1 + signLength + ds.length)
    else (0, 0)
  | [] => (0, 0)

/-- Reads a number. A fraction or exponent that is not complete does not belong to it. -/
def readNumber (r : Rest) : Except ReadError (Json × Rest) :=
  let negative := r.chars.head? = some '-'
  let signLength := if negative then 1 else 0
  let body := r.chars.drop signLength
  let whole := match body with
    | '0' :: _ => ['0']
    | _ => digits body
  if whole.isEmpty then r.fail .value
  else
    let (frac, fracLength) := fraction (body.drop whole.length)
    let (exp, expLength) := exponent (body.drop (whole.length + fracLength))
    let sign : Rat := if negative then -1 else 1
    let power : Rat := if 0 ≤ exp then (10 : Rat) ^ exp.toNat else 1 / (10 : Rat) ^ (-exp).toNat
    let value := sign * (natOfDigits (whole ++ frac) : Rat) / (10 : Rat) ^ frac.length * power
    let rest := r.drop (signLength + whole.length + fracLength + expLength)
    if fracLength = 0 ∧ expLength = 0 then .ok (num value true, rest)
    else .ok (num (Number.toDouble value) false, rest)

/-! ### Values -/

/-- A word that stands for a value. -/
def word? (cs : List Char) : Option (Json × Nat) :=
  if "null".toList.isPrefixOf cs then some (null, 4)
  else if "true".toList.isPrefixOf cs then some (bool true, 4)
  else if "false".toList.isPrefixOf cs then some (bool false, 5)
  else none

mutual

def readValue : (fuel : Nat) → Rest → Except ReadError (Json × Rest)
  | 0, r => r.fail .value
  | fuel + 1, r =>
    match r.chars with
    | '"' :: _ => (readString (r.drop 1)).map fun (s, rest) => (str s, rest)
    | '\x7b' :: _ =>
      let inner := (r.drop 1).skipBlanks
      match inner.chars with
      | '\x7d' :: _ => .ok (obj [], inner.drop 1)
      | _ => readMembers fuel [] inner
    | '[' :: _ =>
      let inner := (r.drop 1).skipBlanks
      match inner.chars with
      | ']' :: _ => .ok (arr [], inner.drop 1)
      | _ => readItems fuel [] inner
    | cs =>
      match word? cs with
      | some (v, n) => .ok (v, r.drop n)
      | none => readNumber r

/-- Reads members from the quote of a name on; `done` holds those so far backwards. -/
def readMembers : (fuel : Nat) → (done : List (String × Json)) → Rest →
    Except ReadError (Json × Rest)
  | 0, _, r => r.fail .value
  | fuel + 1, done, r =>
    match r.chars with
    | '"' :: _ => do
      let (key, behind) ← readString (r.drop 1)
      let colon := behind.skipBlanks
      if colon.chars.head? ≠ some ':' then colon.fail .colon
      else do
        let (v, behind) ← readValue fuel (colon.drop 1).skipBlanks
        let next := behind.skipBlanks
        match next.chars with
        | '\x7d' :: _ => .ok (obj ((key, v) :: done).reverse, next.drop 1)
        | ',' :: _ => readMembers fuel ((key, v) :: done) (next.drop 1).skipBlanks
        | _ => next.fail .comma
    | _ => r.fail .property

/-- Reads items of a list from one of them on. -/
def readItems : (fuel : Nat) → (done : List Json) → Rest → Except ReadError (Json × Rest)
  | 0, _, r => r.fail .value
  | fuel + 1, done, r => do
    let (v, behind) ← readValue fuel r
    let next := behind.skipBlanks
    match next.chars with
    | ']' :: _ => .ok (arr (v :: done).reverse, next.drop 1)
    | ',' :: _ => readItems fuel (v :: done) (next.drop 1).skipBlanks
    | _ => next.fail .comma

end

/-- The value that a text writes. -/
def ofText (text : List Char) : Except ReadError Json := do
  let (v, rest) ← readValue (text.length + 1) (Rest.skipBlanks ⟨text, 0⟩)
  let rest := rest.skipBlanks
  if rest.chars.isEmpty then return v
  else rest.fail .extra

end WordC.Json
