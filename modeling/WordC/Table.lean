/-!
# Tables that remember their order

A table keeps its names in the order in which they first came. Setting a name that is there changes
its value in place; a name that is erased and set again goes to the end.
-/

namespace WordC

structure Table (α : Type) where
  entries : List (String × α) := []

namespace Table

variable {α : Type}

def find? (key : String) : List (String × α) → Option α
  | [] => none
  | (k, v) :: rest => if k = key then some v else find? key rest

def place (key : String) (value : α) : List (String × α) → List (String × α)
  | [] => [(key, value)]
  | (k, v) :: rest => if k = key then (k, value) :: rest else (k, v) :: place key value rest

def get? (t : Table α) (key : String) : Option α := find? key t.entries

def set (t : Table α) (key : String) (value : α) : Table α := ⟨place key value t.entries⟩

def erase (t : Table α) (key : String) : Table α := ⟨t.entries.filter fun e => e.1 != key⟩

def contains (t : Table α) (key : String) : Bool := (t.get? key).isSome

def size (t : Table α) : Nat := t.entries.length

def keys (t : Table α) : List String := t.entries.map (·.1)

/-! ### What a table holds after a change -/

theorem find?_place (key other : String) (value : α) (es : List (String × α)) :
    find? other (place key value es) = if key = other then some value else find? other es := by
  induction es with
  | nil => simp [place, find?]
  | cons e es ih =>
    obtain ⟨k, v⟩ := e
    by_cases hk : k = key
    · by_cases ho : key = other
      · simp [place, find?, hk, ho]
      · simp [place, find?, hk, ho]
    · by_cases ho : k = other
      · have hne : other ≠ key := fun h => hk (ho.trans h)
        simp [place, find?, ho, hne, hne.symm]
      · simp [place, find?, hk, ho, ih]

theorem get?_set (t : Table α) (key other : String) (value : α) :
    (t.set key value).get? other = if key = other then some value else t.get? other :=
  find?_place key other value t.entries

theorem get?_set_self (t : Table α) (key : String) (value : α) :
    (t.set key value).get? key = some value := by
  simp [get?_set]

theorem get?_set_ne (t : Table α) {key other : String} (h : key ≠ other) (value : α) :
    (t.set key value).get? other = t.get? other := by
  simp [get?_set, h]

theorem keys_place (key : String) (value : α) (es : List (String × α)) :
    (place key value es).map (·.1) =
      if (find? key es).isSome then es.map (·.1) else es.map (·.1) ++ [key] := by
  induction es with
  | nil => simp [place, find?]
  | cons e es ih =>
    obtain ⟨k, v⟩ := e
    by_cases hk : k = key
    · simp [place, find?, hk]
    · by_cases hs : (find? key es).isSome <;> simp_all [place, find?]

/-- A name that is there keeps its place, a new one goes to the end. -/
theorem keys_set (t : Table α) (key : String) (value : α) :
    (t.set key value).keys = if t.contains key then t.keys else t.keys ++ [key] :=
  keys_place key value t.entries

end Table

end WordC
