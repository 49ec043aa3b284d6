/-!
# JSON values

Numbers are exact; it is kept whether one was written as an integer. Members of an object stand in
the order in which they were written.
-/

namespace WordC

inductive Json where
  | null
  | bool (b : Bool)
  | num (value : Rat) (whole : Bool)
  | str (s : String)
  | arr (items : List Json)
  | obj (members : List (String × Json))
  deriving Inhabited

namespace Json

def ofInt (n : Int) : Json := num n true

def ofRat (q : Rat) : Json := num q false

/-- The member of an object, if the value is one and has it. -/
def get? (key : String) : Json → Option Json
  | obj members => members.lookup key
  | _ => none

def members : Json → List (String × Json)
  | obj ms => ms
  | _ => []

def items : Json → List Json
  | arr xs => xs
  | _ => []

def number? : Json → Option Rat
  | num q _ => some q
  | _ => none

/-- The value as an integer, if it was written as one; a truth value counts as zero or one. -/
def int? : Json → Option Int
  | num q true => some q.floor
  | bool b => some b.toInt
  | _ => none

def string? : Json → Option String
  | str s => some s
  | _ => none

def isObject : Json → Bool
  | obj _ => true
  | _ => false

/-- The member's value as a number; zero when there is none. -/
def numberAt (key : String) (j : Json) : Rat := ((j.get? key).bind number?).getD 0

def intAt (key : String) (j : Json) : Int := (j.numberAt key).floor

/-- The member's members; none when it is no object. -/
def membersAt (key : String) (j : Json) : List (String × Json) := ((j.get? key).map members).getD []

def itemsAt (key : String) (j : Json) : List Json := ((j.get? key).map items).getD []

/-- What kind of value this is. -/
def kind : Json → String
  | null => "NoneType"
  | bool _ => "bool"
  | num _ true => "int"
  | num _ false => "float"
  | str _ => "str"
  | arr _ => "list"
  | obj _ => "dict"

end Json

end WordC
