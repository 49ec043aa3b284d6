/-!
# UTF-8

Bytes are read one at a time. A character of more than one byte is open until its last byte has
come; the bounds on its second byte keep out overlong forms, surrogates and numbers that are too
large. The first byte that does not fit ends the reading, with the span of the bytes that belong to
the broken character.
-/

namespace WordC.Text

inductive Utf8Fault where
  | start
  | continuation
  | endOfData
  deriving DecidableEq, Repr

/-- Why bytes are no text: the fault, the first byte of the broken character, its place, and where
the span ends. -/
structure Utf8Error where
  fault : Utf8Fault
  byte : UInt8
  first : Nat
  stop : Nat
  deriving DecidableEq, Repr

/-- A character that has begun: its first byte and place, the bytes still to come, the bounds on the
next one, and the bits so far. -/
structure OpenChar where
  byte : UInt8
  first : Nat
  need : Nat
  low : Nat := 0x80
  high : Nat := 0xbf
  bits : Nat

/-- The character that a byte begins, unless the byte is a character of its own or begins none. -/
def openChar? (place : Nat) (b : UInt8) : Option OpenChar :=
  let n := b.toNat
  if 0xc2 ≤ n ∧ n ≤ 0xdf then some { byte := b, first := place, need := 1, bits := n - 0xc0 }
  else if n = 0xe0 then some { byte := b, first := place, need := 2, low := 0xa0, bits := 0 }
  else if n = 0xed then some { byte := b, first := place, need := 2, high := 0x9f, bits := 0xd }
  else if 0xe1 ≤ n ∧ n ≤ 0xef then some { byte := b, first := place, need := 2, bits := n - 0xe0 }
  else if n = 0xf0 then some { byte := b, first := place, need := 3, low := 0x90, bits := 0 }
  else if n = 0xf4 then some { byte := b, first := place, need := 3, high := 0x8f, bits := 4 }
  else if 0xf1 ≤ n ∧ n ≤ 0xf3 then some { byte := b, first := place, need := 3, bits := n - 0xf0 }
  else none

/-- Reads bytes from a place on; `done` holds the characters so far backwards. -/
def decodeFrom (place : Nat) (done : List Char) :
    Option OpenChar → List UInt8 → Except Utf8Error (List Char)
  | none, [] => .ok done.reverse
  | some o, [] => .error ⟨.endOfData, o.byte, o.first, place⟩
  | none, b :: bs =>
    if b < 0x80 then decodeFrom (place + 1) (Char.ofNat b.toNat :: done) none bs
    else
      match openChar? place b with
      | some o => decodeFrom (place + 1) done (some o) bs
      | none => .error ⟨.start, b, place, place + 1⟩
  | some o, b :: bs =>
    if o.low ≤ b.toNat ∧ b.toNat ≤ o.high then
      let bits := o.bits * 64 + b.toNat % 64
      if o.need ≤ 1 then decodeFrom (place + 1) (Char.ofNat bits :: done) none bs
      else decodeFrom (place + 1) done
        (some { o with need := o.need - 1, low := 0x80, high := 0xbf, bits }) bs
    else .error ⟨.continuation, o.byte, o.first, place⟩

/-- The text of some bytes. -/
def decode (bytes : List UInt8) : Except Utf8Error (List Char) := decodeFrom 0 [] none bytes

/-! ### Saying what is wrong -/

def Utf8Fault.text : Utf8Fault → String
  | start => "invalid start byte"
  | continuation => "invalid continuation byte"
  | endOfData => "unexpected end of data"

def hexPair (n : Nat) : String := String.ofList [Nat.digitChar (n / 16), Nat.digitChar (n % 16)]

/-- Names the byte when it stands alone, else only the span. -/
def Utf8Error.message (e : Utf8Error) : String :=
  let what := if e.stop = e.first + 1
      then "byte 0x" ++ hexPair e.byte.toNat ++ " in position " ++ toString e.first
    else "bytes in position " ++ toString e.first ++ "-" ++ toString (e.stop - 1)
  "'utf-8' codec can't decode " ++ what ++ ": " ++ e.fault.text

/-! ### Line ends -/

/-- Makes every carriage return, with the line feed behind it if there is one, a line feed. -/
def lineFeedsFrom (done : List Char) : List Char → List Char
  | [] => done.reverse
  | '\r' :: '\n' :: cs => lineFeedsFrom ('\n' :: done) cs
  | c :: cs => lineFeedsFrom ((if c = '\r' then '\n' else c) :: done) cs

def lineFeeds (cs : List Char) : List Char := lineFeedsFrom [] cs

end WordC.Text
