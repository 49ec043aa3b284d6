/-!
# Machine words

Words are integers read modulo `2 ^ 32`. An integer of any size has an unsigned reading, between `0`
and `2 ^ 32`, and a signed one, between `-2 ^ 31` and `2 ^ 31`; the operations on bits are those of
the unsigned readings.
-/

namespace WordC.Word

def modulus : Int := 4294967296

/-- The unsigned reading. -/
def wrap (v : Int) : Int := v % modulus

/-- The signed reading. -/
def signed (v : Int) : Int :=
  if wrap v < 2147483648 then wrap v else wrap v - modulus

/-- The bits of a word as a number. -/
def bits (v : Int) : Nat := (wrap v).toNat

theorem wrap_nonneg (v : Int) : 0 ≤ wrap v := by
  unfold wrap modulus; omega

theorem wrap_lt (v : Int) : wrap v < modulus := by
  unfold wrap modulus; omega

theorem wrap_wrap (v : Int) : wrap (wrap v) = wrap v := by
  unfold wrap modulus; omega

theorem wrap_of_range {v : Int} (h₀ : 0 ≤ v) (h₁ : v < modulus) : wrap v = v := by
  unfold modulus at h₁
  unfold wrap modulus
  omega

theorem wrap_signed (v : Int) : wrap (signed v) = wrap v := by
  unfold signed
  split
  · exact wrap_wrap v
  · unfold wrap modulus; omega

theorem signed_range (v : Int) : -2147483648 ≤ signed v ∧ signed v < 2147483648 := by
  have h₀ := wrap_nonneg v
  have h₁ := wrap_lt v
  unfold modulus at h₁
  unfold signed modulus
  split <;> omega

theorem bits_cast (v : Int) : (bits v : Int) = wrap v := by
  unfold bits
  exact Int.toNat_of_nonneg (wrap_nonneg v)

theorem bits_lt (v : Int) : bits v < 4294967296 := by
  have h := wrap_lt v
  rw [← bits_cast] at h
  unfold modulus at h
  omega

/-! ### Operations on bits -/

def bitAnd (l r : Int) : Int := (bits l &&& bits r : Nat)

def bitOr (l r : Int) : Int := (bits l ||| bits r : Nat)

def bitXor (l r : Int) : Int := (bits l ^^^ bits r : Nat)

def complement (v : Int) : Int := wrap (-v - 1)

/-- The number of places that a shift by `r` moves. -/
def shiftCount (r : Int) : Nat := (r % 32).toNat

theorem shiftCount_lt (r : Int) : shiftCount r < 32 := by
  unfold shiftCount; omega

/-- The word with only bit `b` set, the number of the bit taken modulo the width. -/
def oneBit (b : Int) : Nat := 1 <<< shiftCount b

def shiftLeft (l r : Int) : Int := wrap (l * oneBit r)

/-- A shift to the right rounds towards the smaller number, so the sign stays. -/
def shiftRight (l r : Int) : Int := wrap (l >>> shiftCount r)

theorem oneBit_eq (b : Int) : oneBit b = Nat.pow 2 (shiftCount b) := Nat.one_shiftLeft _

theorem oneBit_le (b : Int) : oneBit b ≤ 2147483648 := by
  rw [oneBit_eq]
  exact Nat.pow_le_pow_right (by decide) (Nat.le_of_lt_succ (shiftCount_lt b))

def setBit (v b : Int) : Int := (bits v ||| oneBit b : Nat)

def clearBit (v b : Int) : Int := (bits v &&& (4294967295 - oneBit b) : Nat)

def toggleBit (v b : Int) : Int := (bits v ^^^ oneBit b : Nat)

def getBit (v b : Int) : Int := if (bits v).testBit (shiftCount b) then 1 else 0

end WordC.Word
