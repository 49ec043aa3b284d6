import WordC.Proofs.WordArithmetic

/-!
# Words of both types

A value of the signed type comes in two encodings: a computed one lies between `-2 ^ 31` and `2 ^
31`, one read from a variable between `0` and `2 ^ 32`. Operators convert their operands by type and
reduce their results, so what an expression keeps is the word that its value stands for, together
with the range of its type. For sums, products, operations on bits and shifts to the left the word
of the result depends on the words of the operands only; the logical operators ask for zero, and
within the ranges zero is the only number whose word is zero.
-/

namespace WordC

/-! ### Numbers and their words -/

namespace Word

theorem ofInt_wrap (v : Int) : BitVec.ofInt 32 (wrap v) = BitVec.ofInt 32 v := by
  rw [wrap_eq_toNat, BitVec.ofInt_natCast, BitVec.ofNat_toNat, BitVec.setWidth_eq]

theorem ofInt_eq_iff {v w : Int} : BitVec.ofInt 32 v = BitVec.ofInt 32 w ↔ wrap v = wrap w := by
  rw [wrap_eq_toNat, wrap_eq_toNat, toNat_cast_inj]

theorem ofInt_signed (v : Int) : BitVec.ofInt 32 (signed v) = BitVec.ofInt 32 v :=
  ofInt_eq_iff.mpr (wrap_signed v)

theorem bits_eq_toNat (v : Int) : bits v = (BitVec.ofInt 32 v).toNat := by
  unfold bits
  rw [wrap_eq_toNat, Int.toNat_natCast]

theorem ofInt_toNat (v : BitVec 32) : BitVec.ofInt 32 v.toNat = v := by
  rw [BitVec.ofInt_natCast, BitVec.ofNat_toNat, BitVec.setWidth_eq]

theorem shiftCount_eq (r : Int) : shiftCount r = (BitVec.ofInt 32 r).toNat % 32 := by
  unfold shiftCount
  rw [BitVec.toNat_ofInt]
  omega

theorem ofInt_shiftLeft (l r : Int) :
    BitVec.ofInt 32 (shiftLeft l r) = BitVec.ofInt 32 l <<< ((BitVec.ofInt 32 r).toNat % 32) := by
  have hpow : BitVec.ofInt 32 (oneBit r) = BitVec.twoPow 32 (shiftCount r) := by
    rw [BitVec.ofInt_natCast]
    apply BitVec.eq_of_toNat_eq
    rw [BitVec.toNat_ofNat, BitVec.toNat_twoPow, oneBit_eq]
    rfl
  rw [shiftLeft, ofInt_wrap, BitVec.ofInt_mul, hpow, ← shiftCount_eq,
    BitVec.mul_twoPow_eq_shiftLeft]

theorem ofInt_complement (v : Int) : BitVec.ofInt 32 (complement v) = ~~~BitVec.ofInt 32 v := by
  have hone : BitVec.ofInt 32 1 = 1#32 := by decide
  rw [complement, ofInt_wrap, BitVec.not_eq_neg_add, Int.sub_eq_add_neg, BitVec.ofInt_add,
    BitVec.ofInt_neg, BitVec.ofInt_neg, hone, ← BitVec.sub_eq_add_neg]

end Word

theorem ofInt_truth (b : Bool) : BitVec.ofInt 32 (if b then 1 else 0) = truthWord b := by
  cases b <;> rfl

/-! ### Values in the range of their type -/

/-- The smallest value of a type. -/
def IntType.least : IntType → Int
  | uint32 => 0
  | int32 => -2147483648

theorem IntType.least_bounds (t : IntType) : -2147483648 ≤ t.least ∧ t.least ≤ 0 := by
  cases t <;> decide

theorem IntType.ofInt_normal (t : IntType) (v : Int) :
    BitVec.ofInt 32 (t.normal v) = BitVec.ofInt 32 v := by
  cases t with
  | uint32 => exact Word.ofInt_wrap v
  | int32 => exact Word.ofInt_signed v

namespace Value

/-- The word that a value stands for. -/
def word (v : Value) : BitVec 32 := BitVec.ofInt 32 v.value

/-- Values as evaluation gives them: a signed one may come in either encoding. -/
def InRange (v : Value) : Prop := v.type.least ≤ v.value ∧ v.value < Word.modulus

theorem normal_inRange (t : IntType) (n : Int) : InRange ⟨t.normal n, t⟩ := by
  cases t with
  | uint32 => exact ⟨Word.wrap_nonneg n, Word.wrap_lt n⟩
  | int32 =>
    have hrange := Word.signed_range n
    exact ⟨hrange.1, Int.lt_trans hrange.2 (by decide)⟩

/-- Within the ranges only zero has the word zero. -/
theorem InRange.eq_zero_iff {v : Value} (h : v.InRange) : v.value = 0 ↔ v.word = 0 := by
  have hleast := Int.le_trans v.type.least_bounds.1 h.1
  have hlt := h.2
  unfold Word.modulus at hlt
  have hzero : v.word = 0 ↔ Word.wrap v.value = 0 := Word.ofInt_eq_iff (w := 0)
  rw [hzero]
  unfold Word.wrap Word.modulus
  omega

end Value

/-! ### Operators -/

namespace BinOp

theorem ofInt_operand (v : Value) (other : IntType) :
    BitVec.ofInt 32 (operand v other) = v.word := by
  unfold operand
  split
  · exact Word.ofInt_signed v.value
  · rfl

theorem operand_eq_zero_iff {v : Value} (h : v.InRange) (other : IntType) :
    operand v other = 0 ↔ v.word = 0 := by
  unfold operand
  split
  · have hsigned : Value.InRange ⟨Word.signed v.value, .int32⟩ :=
      Value.normal_inRange .int32 v.value
    have hword : Value.word ⟨Word.signed v.value, .int32⟩ = v.word := Word.ofInt_signed v.value
    rw [← hword]
    exact hsigned.eq_zero_iff
  · exact h.eq_zero_iff

/-- The operators whose result has a word that depends on the words of the operands only, if these
are in range. -/
def ignoresTypes : BinOp → Bool
  | add | sub | mul | bitAnd | bitOr | bitXor | shiftLeft | logicalAnd | logicalOr => true
  | _ => false

/-- Those among them that need no range. -/
def isWordwise : BinOp → Bool
  | add | sub | mul | bitAnd | bitOr | bitXor | shiftLeft => true
  | _ => false

theorem result?_wordwise {op : BinOp} (h : op.isWordwise = true) (l r : Int) : ∃ n, op.result? l r =
    some n ∧ BitVec.ofInt 32 n = op.onWords (BitVec.ofInt 32 l) (BitVec.ofInt 32 r) := by
  cases op with
  | add => exact ⟨_, rfl, BitVec.ofInt_add l r⟩
  | sub =>
    refine ⟨_, rfl, ?_⟩
    rw [Int.sub_eq_add_neg, BitVec.ofInt_add, BitVec.ofInt_neg, ← BitVec.sub_eq_add_neg]
    rfl
  | mul => exact ⟨_, rfl, BitVec.ofInt_mul l r⟩
  | bitAnd =>
    refine ⟨_, rfl, ?_⟩
    rw [Word.bitAnd, Word.bits_eq_toNat, Word.bits_eq_toNat, ← BitVec.toNat_and, Word.ofInt_toNat]
    rfl
  | bitOr =>
    refine ⟨_, rfl, ?_⟩
    rw [Word.bitOr, Word.bits_eq_toNat, Word.bits_eq_toNat, ← BitVec.toNat_or, Word.ofInt_toNat]
    rfl
  | bitXor =>
    refine ⟨_, rfl, ?_⟩
    rw [Word.bitXor, Word.bits_eq_toNat, Word.bits_eq_toNat, ← BitVec.toNat_xor, Word.ofInt_toNat]
    rfl
  | shiftLeft => exact ⟨_, rfl, Word.ofInt_shiftLeft l r⟩
  | _ => cases h

theorem result?_word {op : BinOp} (h : op.ignoresTypes = true) {l r : Int}
    (hl : l = 0 ↔ BitVec.ofInt 32 l = 0) (hr : r = 0 ↔ BitVec.ofInt 32 r = 0) :
    ∃ n, op.result? l r = some n ∧
    BitVec.ofInt 32 n = op.onWords (BitVec.ofInt 32 l) (BitVec.ofInt 32 r) := by
  cases op with
  | add | sub | mul | bitAnd | bitOr | bitXor | shiftLeft => exact result?_wordwise rfl l r
  | logicalAnd =>
    refine ⟨_, rfl, ?_⟩
    rw [ofInt_truth]
    simp only [onWords, ne_eq, hl, hr]
  | logicalOr =>
    refine ⟨_, rfl, ?_⟩
    rw [ofInt_truth]
    simp only [onWords, ne_eq, hl, hr]
  | _ => cases h

theorem result?_operands {op : BinOp} (h : op.ignoresTypes = true) {l r : Value} (hl : l.InRange)
    (hr : r.InRange) : ∃ n, op.result? (operand l r.type) (operand r l.type) = some n ∧
    BitVec.ofInt 32 n = op.onWords l.word r.word := by
  have hl₀ := operand_eq_zero_iff hl r.type
  have hr₀ := operand_eq_zero_iff hr l.type
  rw [← ofInt_operand l r.type] at hl₀
  rw [← ofInt_operand r l.type] at hr₀
  obtain ⟨n, hn, hword⟩ := result?_word h hl₀ hr₀
  rw [ofInt_operand, ofInt_operand] at hword
  exact ⟨n, hn, hword⟩

/-- Such an operator does not fail, and its result is in range. -/
theorem apply_word {op : BinOp} (h : op.ignoresTypes = true) {l r : Value}
    (hl : l.InRange) (hr : r.InRange) :
    ∃ v, op.apply l r = .ok v ∧ v.word = op.onWords l.word r.word ∧ v.InRange := by
  obtain ⟨n, hn, hword⟩ := result?_operands h hl hr
  refine ⟨⟨(op.resultType l.type r.type).normal n, op.resultType l.type r.type⟩, ?_, ?_,
    Value.normal_inRange _ n⟩
  · simp only [apply, hn]
  · exact (IntType.ofInt_normal _ n).trans hword

end BinOp

theorem UnaryOp.apply_word (op : UnaryOp) {v : Value} (h : v.InRange) :
    (op.apply v).word = op.onWords v.word ∧ (op.apply v).InRange := by
  cases op with
  | logicalNot =>
    by_cases hv : v.word = 0
    · have happly : logicalNot.apply v = ⟨1, .uint32⟩ := by simp [apply, h.eq_zero_iff.mpr hv]
      rw [happly, hv]
      exact ⟨by decide, by decide, by decide⟩
    · have hvalue : v.value ≠ 0 := fun h₀ => hv (h.eq_zero_iff.mp h₀)
      have happly : logicalNot.apply v = ⟨0, .uint32⟩ := by simp [apply, hvalue]
      have hword : logicalNot.onWords v.word = 0 := by simpa [onWords, truthWord] using hv
      rw [happly, hword]
      exact ⟨by decide, by decide, by decide⟩
  | complement =>
    refine ⟨?_, Value.normal_inRange v.type _⟩
    exact (IntType.ofInt_normal v.type _).trans (Word.ofInt_complement v.value)
  | negate =>
    refine ⟨?_, Value.normal_inRange .int32 _⟩
    have hread :
        BitVec.ofInt 32 (if v.type = .uint32 then Word.signed v.value else v.value) = v.word := by
      split
      · exact Word.ofInt_signed v.value
      · rfl
    refine (Word.ofInt_signed _).trans ?_
    rw [BitVec.ofInt_neg, hread]
    rfl

/-! ### Expressions -/

namespace Machine

/-- A name that means a variable, of either type. -/
def HasVariable (m : Machine) (x : String) : Prop :=
  m.registerNames.get? x = none ∧ ∃ v, m.scopes.get x = .ok v

theorem readVariable_word {m : Machine} {x : String} (h : m.HasVariable x) :
    ∃ v, Run.readVariable x m = (.ok v, m) ∧ v.word = m.word x ∧ v.InRange := by
  obtain ⟨hr, n, hn⟩ := h
  refine ⟨_, Run.readVariable_of_get hr hn, ?_, ?_⟩
  · have hword : m.word x = BitVec.ofInt 32 n := by simp only [word, hn]
    rw [hword]
    exact Word.ofInt_wrap n
  · exact ⟨Int.le_trans (IntType.least_bounds _).2 (Word.wrap_nonneg n), Word.wrap_lt n⟩

end Machine

/-- Whatever the types of its variables, an expression of sums, differences, products, operations on
bits, shifts to the left and logical operators has a value. Its word is that of the expression on
vectors, where there are no types, and it is in the range of its type. -/
theorem eval_mixed_exact (calls : Calls) (m : Machine) (e : Expr)
    (he : e.BuiltFrom m.HasVariable (fun _ => True) fun op => op.ignoresTypes = true) :
    ∃ v, e.eval calls m = (.ok v, m) ∧ Word.wrap v.value = ((e.onWords m.word).toNat : Int) ∧
    v.type.least ≤ v.value ∧
      v.value < 4294967296 := by
  suffices h : ∃ v, e.eval calls m = (.ok v, m) ∧ v.word = e.onWords m.word ∧ v.InRange by
    obtain ⟨v, hv, hword, hrange⟩ := h
    refine ⟨v, hv, ?_, hrange⟩
    rw [← hword]
    exact Word.wrap_eq_toNat v.value
  induction he with
  | literal n =>
    refine ⟨⟨Word.wrap n, .uint32⟩, by rw [Expr.eval, Step.pure_apply], ?_,
      Value.normal_inRange .uint32 n⟩
    exact (Word.ofInt_wrap n).trans (BitVec.ofInt_natCast 32 n)
  | name hx =>
    rw [Expr.eval]
    exact Machine.readVariable_word hx
  | @unary op e _ _ ih =>
    obtain ⟨v, hv, hword, hrange⟩ := ih
    obtain ⟨hword', hrange'⟩ := op.apply_word hrange
    refine ⟨op.apply v, ?_, ?_, hrange'⟩
    · rw [Expr.eval, Step.bind_ok hv, Step.pure_apply]
    · rw [hword', hword]
      rfl
  | @binary op l r ho _ _ ihl ihr =>
    obtain ⟨vl, hl, hlword, hlrange⟩ := ihl
    obtain ⟨vr, hr, hrword, hrrange⟩ := ihr
    obtain ⟨v, happly, hword, hrange⟩ := BinOp.apply_word ho hlrange hrrange
    refine ⟨v, ?_, ?_, hrange⟩
    · rw [Expr.eval, Step.bind_ok hl, Step.bind_ok hr, happly]
      rfl
    · rw [hword, hlword, hrword]
      rfl

/-- With a signed `x` of `-5` and an unsigned `y` of `7`, the sum in `!(x * y + 35) | x << 1` is
zero in the signed encoding. -/
theorem eval_mixed_exact_zero :
    let m : Machine := { scopes := [(Scope.declare {} "x" (-5) .int32).declare "y" 7 .uint32] }
    let e : Expr := .binary .bitOr
      (.unary .logicalNot (.binary .add (.binary .mul (.name "x") (.name "y")) (.literal 35)))
      (.binary .shiftLeft (.name "x") (.literal 1))
    e.BuiltFrom m.HasVariable (fun _ => True) (fun op => op.ignoresTypes = true) ∧
      ∃ v, e.eval (Program.calls ⟨[], []⟩ 0) m = (.ok v, m) ∧ Word.wrap v.value = 4294967287 := by
  intro m e
  have hx : m.HasVariable "x" := ⟨rfl, 4294967291, rfl⟩
  have hy : m.HasVariable "y" := ⟨rfl, 7, rfl⟩
  have he : e.BuiltFrom m.HasVariable (fun _ => True) fun op => op.ignoresTypes = true :=
    .binary rfl (.unary trivial (.binary rfl (.binary rfl (.name hx) (.name hy)) (.literal 35)))
      (.binary rfl (.name hx) (.literal 1))
  obtain ⟨v, hv, hword, -⟩ := eval_mixed_exact (Program.calls ⟨[], []⟩ 0) m e he
  have hvalue : (e.onWords m.word).toNat = 4294967287 := by decide
  rw [hvalue] at hword
  exact ⟨he, v, hv, hword⟩

end WordC
