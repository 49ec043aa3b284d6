import Mathlib.Data.Int.Bitwise
import WordC.Proofs.DeviceHistory

/-!
# Functions on single bits

An integer of any size has a bit at every place; from some place on the bits of a negative one are
all ones. The functions on single bits take integers as they come, choose the bit by its number
modulo the width, and answer with a word: all its bits but the chosen one are the lower bits of the
integer. A word is determined by its 32 bits, so whatever is to be said about these functions, alone
or one after the other, is said bit by bit.
-/

namespace WordC

namespace Word

/-! ### The bits of a word -/

/-- A word keeps the lower bits of an integer. -/
theorem testBit_bits (v : Int) (i : Nat) :
    (bits v).testBit i = (decide (i < 32) && v.testBit i) := by
  cases v with
  | ofNat n =>
    have hbits : bits (Int.ofNat n) = n % 2 ^ 32 := by
      simp only [bits, wrap, modulus, Int.ofNat_eq_natCast]
      omega
    rw [hbits, Nat.testBit_mod_two_pow]
    rfl
  | negSucc n =>
    have hbits : bits (Int.negSucc n) = 2 ^ 32 - (n % 2 ^ 32 + 1) := by
      simp only [bits, wrap, modulus]
      omega
    rw [hbits, Nat.testBit_two_pow_sub_succ (Nat.mod_lt n (by decide)), Nat.testBit_mod_two_pow]
    show (decide (i < 32) && !(decide (i < 32) && n.testBit i)) = (decide (i < 32) && !n.testBit i)
    cases decide (i < 32) <;> simp

theorem testBit_natCast (n i : Nat) : (n : Int).testBit i = n.testBit i := rfl

theorem testBit_wrap (v : Int) (i : Nat) :
    (wrap v).testBit i = (decide (i < 32) && v.testBit i) := by
  rw [← bits_cast, testBit_natCast, testBit_bits]

/-- Words with the same 32 bits are the same. -/
theorem wrap_eq_wrap {v w : Int} (h : ∀ i < 32, v.testBit i = w.testBit i) : wrap v = wrap w := by
  rw [← bits_cast, ← bits_cast]
  congr 1
  apply Nat.eq_of_testBit_eq
  intro i
  rw [testBit_bits, testBit_bits]
  by_cases hi : i < 32
  · rw [h i hi]
  · simp [hi]

theorem testBit_oneBit (b : Int) (i : Nat) : (oneBit b).testBit i = decide (i = shiftCount b) := by
  rw [oneBit, Nat.one_shiftLeft, Nat.testBit_two_pow]
  simp [eq_comm]

/-- The word with all bits but one. -/
theorem testBit_sub_oneBit (b : Int) (i : Nat) :
    (4294967295 - oneBit b).testBit i = (decide (i < 32) && !decide (i = shiftCount b)) := by
  have hone : oneBit b < 2 ^ 32 := Nat.lt_of_le_of_lt (oneBit_le b) (by decide)
  have hsub : 4294967295 - oneBit b = 2 ^ 32 - (oneBit b + 1) := by omega
  rw [hsub, Nat.testBit_two_pow_sub_succ hone, testBit_oneBit]

end Word

/-! ### Changing one bit -/

/-- The functions that change one bit of a word. -/
inductive BitChange where
  | set | clear | toggle

namespace BitChange

open Word

def function : BitChange → DeviceFunction
  | set => .setBit
  | clear => .clearBit
  | toggle => .toggleBit

/-- What happens to the chosen bit. -/
def onBit : BitChange → Bool → Bool
  | set, _ => true
  | clear, _ => false
  | toggle, x => !x

/-- The change of bit `k` of an integer with bits at all places. -/
def onInteger : BitChange → Int → Nat → Int
  | set, v, k => v.lor (1 <<< k : Nat)
  | clear, v, k => v.land (Int.lnot (1 <<< k : Nat))
  | toggle, v, k => v.xor (1 <<< k : Nat)

/-- The answer of the function to the integers `v` and `b`. -/
def answer : BitChange → Int → Int → Int
  | set => setBit
  | clear => clearBit
  | toggle => toggleBit

theorem testBit_onInteger (f : BitChange) (v : Int) (k i : Nat) :
    (f.onInteger v k).testBit i = if i = k then f.onBit (v.testBit k) else v.testBit i := by
  have hone : ((1 <<< k : Nat) : Int).testBit i = decide (i = k) := by
    rw [testBit_natCast, Nat.one_shiftLeft, Nat.testBit_two_pow]
    simp [eq_comm]
  cases f <;> simp only [onInteger, onBit, Int.testBit_lor, Int.testBit_land, Int.testBit_lxor,
    Int.testBit_lnot, hone]
  all_goals
    by_cases hi : i = k
    · subst hi
      simp
    · simp [hi]

theorem answer_range (f : BitChange) (v b : Int) : 0 ≤ f.answer v b ∧ f.answer v b < modulus := by
  have hv : bits v < 2 ^ 32 := bits_lt v
  have hone : oneBit b < 2 ^ 32 := Nat.lt_of_le_of_lt (oneBit_le b) (by decide)
  cases f with
  | set =>
    have hlt := Nat.or_lt_two_pow hv hone
    exact ⟨Int.natCast_nonneg _, by simp only [answer, setBit, modulus]; omega⟩
  | clear =>
    have hlt := Nat.and_lt_two_pow (bits v) (show 4294967295 - oneBit b < 2 ^ 32 by omega)
    exact ⟨Int.natCast_nonneg _, by simp only [answer, clearBit, modulus]; omega⟩
  | toggle =>
    have hlt := Nat.xor_lt_two_pow hv hone
    exact ⟨Int.natCast_nonneg _, by simp only [answer, toggleBit, modulus]; omega⟩

/-- Cutting an integer to its lower bits after the change or before it gives the same word. -/
theorem answer_eq_wrap (f : BitChange) (v b : Int) :
    f.answer v b = wrap (f.onInteger v (shiftCount b)) := by
  obtain ⟨hnonneg, hlt⟩ := f.answer_range v b
  rw [← wrap_of_range hnonneg hlt]
  apply wrap_eq_wrap
  intro i hi
  rw [testBit_onInteger]
  cases f with
  | set =>
    rw [answer, setBit, testBit_natCast, Nat.testBit_or, testBit_bits, testBit_oneBit]
    by_cases hk : i = shiftCount b <;> simp [onBit, hi, hk]
  | clear =>
    rw [answer, clearBit, testBit_natCast, Nat.testBit_and, testBit_bits, testBit_sub_oneBit]
    by_cases hk : i = shiftCount b <;> simp [onBit, hi, hk]
  | toggle =>
    rw [answer, toggleBit, testBit_natCast, Nat.testBit_xor, testBit_bits, testBit_oneBit]
    by_cases hk : i = shiftCount b
    · subst hk
      simp [onBit, hi]
    · simp [hi, hk]

theorem testBit_answer (f : BitChange) (v b : Int) {i : Nat} (hi : i < 32) :
    (f.answer v b).testBit i = if i = shiftCount b then f.onBit (v.testBit i) else v.testBit i := by
  rw [answer_eq_wrap, testBit_wrap, testBit_onInteger]
  by_cases hk : i = shiftCount b
  · subst hk
    simp [hi]
  · simp [hi, hk]

/-- The answer is already a word. -/
theorem wrap_answer (f : BitChange) (v b : Int) : wrap (f.answer v b) = f.answer v b :=
  wrap_of_range (f.answer_range v b).1 (f.answer_range v b).2

/-! ### One function after the other -/

theorem shiftCount_eq_iff {b c : Int} : shiftCount b = shiftCount c ↔ b % 32 = c % 32 := by
  unfold shiftCount
  omega

theorem getBit_eq (v b : Int) : getBit v b = if v.testBit (shiftCount b) then 1 else 0 := by
  rw [getBit, testBit_bits]
  simp [shiftCount_lt b]

theorem getBit_answer (f : BitChange) (v b c : Int) : getBit (f.answer v b) c = if b % 32 = c % 32
    then (if f.onBit (v.testBit (shiftCount b)) then 1 else 0) else getBit v c := by
  rw [getBit_eq, testBit_answer f v b (shiftCount_lt c)]
  by_cases h : b % 32 = c % 32
  · have hk : shiftCount c = shiftCount b := (shiftCount_eq_iff.mpr h).symm
    simp [h, hk]
  · have hk : shiftCount c ≠ shiftCount b := fun heq => h (shiftCount_eq_iff.mp heq.symm)
    simp [h, hk, getBit_eq]

/-- Changes of different bits can be made in either order. -/
theorem answer_comm (f g : BitChange) (v : Int) {b c : Int} (h : b % 32 ≠ c % 32) :
    f.answer (g.answer v c) b = g.answer (f.answer v b) c := by
  have hk : shiftCount b ≠ shiftCount c := fun heq => h (shiftCount_eq_iff.mp heq)
  rw [← wrap_answer f (g.answer v c), ← wrap_answer g (f.answer v b)]
  apply wrap_eq_wrap
  intro i hi
  simp only [testBit_answer _ _ _ hi]
  by_cases hb : i = shiftCount b
  · subst hb
    simp [hk]
  · simp [hb]

theorem toggle_toggle (v b : Int) : toggle.answer (toggle.answer v b) b = wrap v := by
  rw [← wrap_answer toggle]
  apply wrap_eq_wrap
  intro i hi
  simp only [testBit_answer _ _ _ hi]
  by_cases hb : i = shiftCount b <;> simp [hb, onBit]

end BitChange

/-! ### Calls -/

namespace Run

theorem deviceCall_change (f : BitChange) (v b : Int) (m : Machine) :
    deviceCall f.function.name [v, b] m = (.ok (f.answer v b), m) := by
  rw [Machine.deviceCall_apply]
  cases f <;> rfl

theorem deviceCall_getBit (v b : Int) (m : Machine) :
    deviceCall "get_bit" [v, b] m = (.ok (Word.getBit v b), m) := by
  rw [Machine.deviceCall_apply]
  rfl

end Run

open Run in
/-- A built-in function gets the values of its arguments as they are, whatever their types. -/
theorem Expr.eval_deviceCall {calls : Calls} {name : String} {d e : Expr} {v b : Value}
    {m m₁ m₂ : Machine} (hname : (DeviceFunction.ofName? name).isSome)
    (hd : d.eval calls m = (.ok v, m₁)) (he : e.eval calls m₁ = (.ok b, m₂)) {r : Int}
    (hcall : deviceCall name [v.value, b.value] m₂ = (.ok r, m₂)) :
    (Expr.call name [d, e]).eval calls m = (.ok ⟨r, .uint32⟩, m₂) := by
  have hargs : Expr.evalAll calls [d, e] m = (.ok [v.value, b.value], m₂) := by
    rw [Expr.evalAll, Step.bind_ok hd, Expr.evalAll, bind_assoc, Step.bind_ok he]
    rfl
  rw [Expr.eval, if_pos hname, Step.bind_ok hargs, Step.bind_ok hcall]
  rfl

/-- Whatever the two integers are, with `k` for the second one modulo 32: setting, clearing and
toggling leave the machine as it is and answer with the word whose bit `k` is one, zero and the
opposite of bit `k` of the first integer, and whose other bits are those of the first integer; this
is the change on the whole integer, cut to a word. The bit that is read is bit `k`. So reading a
changed bit gives what it was changed to and reading another one what it was, changes of different
bits can be made in either order, and toggling twice gives the word of the integer. A call in a
program passes the values of its arguments on as they are. -/
theorem bit_functions_exact (calls : Calls) (m : Machine) (v b : Int) :
    let k := (b % 32).toNat
    (∀ f : BitChange,
      Run.deviceCall f.function.name [v, b] m = (.ok (f.answer v b), m) ∧
      f.answer v b = Word.wrap (f.onInteger v k) ∧
      0 ≤ f.answer v b ∧ f.answer v b < 4294967296 ∧
      (f.answer v b).testBit k = f.onBit ((Word.wrap v).testBit k) ∧
      ∀ i < 32, i ≠ k → (f.answer v b).testBit i = (Word.wrap v).testBit i) ∧
    Run.deviceCall "get_bit" [v, b] m = (.ok (Word.getBit v b), m) ∧
    Word.getBit v b = (if (Word.wrap v).testBit k then 1 else 0) ∧
    (∀ (f : BitChange) (c : Int), Word.getBit (f.answer v b) c =
      if b % 32 = c % 32 then (if f.onBit ((Word.wrap v).testBit k) then 1 else 0)
      else Word.getBit v c) ∧
    (∀ (f g : BitChange) (c : Int), b % 32 ≠ c % 32 →
      f.answer (g.answer v c) b = g.answer (f.answer v b) c) ∧
    BitChange.toggle.answer (BitChange.toggle.answer v b) b = Word.wrap v ∧
    ∀ (d e : Expr) (s t : IntType) (m₁ m₂ : Machine),
      d.eval calls m = (.ok ⟨v, s⟩, m₁) → e.eval calls m₁ = (.ok ⟨b, t⟩, m₂) →
      (∀ f : BitChange, (Expr.call f.function.name [d, e]).eval calls
      m = (.ok ⟨f.answer v b, .uint32⟩, m₂)) ∧
      (Expr.call "get_bit" [d, e]).eval calls m = (.ok ⟨Word.getBit v b, .uint32⟩, m₂) := by
  intro k
  have hk : k < 32 := Word.shiftCount_lt b
  have hbit : (Word.wrap v).testBit k = v.testBit k := by simp [Word.testBit_wrap, hk]
  refine ⟨fun f => ?_, Run.deviceCall_getBit v b m, ?_,
    fun f c => ?_, fun f g c hbc => f.answer_comm g v hbc, BitChange.toggle_toggle v b,
    fun d e s t m₁ m₂ hd he => ⟨fun f => ?_, ?_⟩⟩
  · obtain ⟨hnonneg, hlt⟩ := f.answer_range v b
    refine ⟨Run.deviceCall_change f v b m, f.answer_eq_wrap v b, hnonneg, hlt, ?_,
      fun i hi hne => ?_⟩
    · rw [f.testBit_answer v b hk, hbit]
      exact if_pos rfl
    · rw [f.testBit_answer v b hi, Word.testBit_wrap]
      simp [hi, show i ≠ Word.shiftCount b from hne]
  · rw [hbit]
    exact BitChange.getBit_eq v b
  · rw [hbit]
    exact f.getBit_answer v b c
  · exact Expr.eval_deviceCall (by cases f <;> decide) hd he (Run.deviceCall_change f v b m₂)
  · exact Expr.eval_deviceCall (by decide) hd he (Run.deviceCall_getBit v b m₂)

/-- `toggle_bit(-5, -1)` turns the sign bit of `-5` off, and setting bit 34 on top of it is the same
as doing it before. -/
theorem bit_functions_exact_negative :
    let m : Machine := {}
    (Expr.call "toggle_bit" [.unary .negate (.literal 5), .unary .negate (.literal 1)]).eval
      (Program.calls ⟨[], []⟩ 0) m = (.ok ⟨2147483643, .uint32⟩, m) ∧
    Word.setBit (Word.toggleBit (-5) (-1)) 34 = Word.toggleBit (Word.setBit (-5) 34) (-1) := by
  intro m
  obtain ⟨-, -, -, -, hcomm, -, hcall⟩ := bit_functions_exact (Program.calls ⟨[], []⟩ 0) m (-5) (-1)
  have hnegate (n : Nat) (v : Value) (hv : UnaryOp.apply .negate ⟨Word.wrap n, .uint32⟩ = v) :
      (Expr.unary .negate (.literal n)).eval (Program.calls ⟨[], []⟩ 0) m = (.ok v, m) := by
    have hliteral :
        (Expr.literal n).eval (Program.calls ⟨[], []⟩ 0) m = (.ok ⟨Word.wrap n, .uint32⟩, m) := by
      rw [Expr.eval, Step.pure_apply]
    rw [Expr.eval, Step.bind_ok hliteral, Step.pure_apply, hv]
  have hfive := hnegate 5 ⟨-5, .int32⟩ (by decide)
  have hone := hnegate 1 ⟨-1, .int32⟩ (by decide)
  refine ⟨?_, (hcomm .toggle .set 34 (by decide)).symm⟩
  exact (hcall _ _ .int32 .int32 m m hfive hone).1 .toggle

end WordC
