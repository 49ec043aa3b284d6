import WordC.Proofs.MixedWords

/-!
# Which operators tell encodings apart

A negative number of the signed type is read from a variable as a number from `2 ^ 31` on and
computed as a negative one. Beside a signed operand an unsigned one is read as signed, but a signed
operand is taken as it comes, so an operator may answer differently for the two encodings of one
number. This file says which operators do, for each pair of operand types. Where they do not, equal
words give equal results; where they do, a variable of value `-1` and the expression `-1` give
different ones. An address such as `&*p` can even be an unsigned number below zero; sums, products,
operations on bits and shifts to the left do not mind that either.
-/

namespace WordC

/-! ### Values with one word -/

theorem Word.signed_congr {v w : Int} (h : wrap v = wrap w) : signed v = signed w := by
  unfold signed
  rw [h]

theorem Word.signed_of_range {v : Int} (h₀ : -2147483648 ≤ v) (h₁ : v < 2147483648) :
    signed v = v := by
  unfold signed wrap modulus
  split <;> omega

theorem Word.signed_eq_toInt (v : Int) : signed v = (BitVec.ofInt 32 v).toInt := by
  have hv := wrap_eq_toNat v
  rw [BitVec.toInt_eq_toNat_cond]
  unfold signed modulus
  split <;> split <;> omega

theorem IntType.normal_congr (t : IntType) {v w : Int} (h : Word.wrap v = Word.wrap w) :
    t.normal v = t.normal w := by
  cases t with
  | uint32 => exact h
  | int32 => exact Word.signed_congr h

namespace Value

/-- Values of one type that are congruent modulo `2 ^ 32`. -/
def Alike (v w : Value) : Prop := v.type = w.type ∧ Word.wrap v.value = Word.wrap w.value

variable {v w : Value}

theorem Alike.word_eq (h : v.Alike w) : v.word = w.word := Word.ofInt_eq_iff.mpr h.2

/-- An unsigned value has one encoding. -/
theorem Alike.value_eq (h : v.Alike w) (hv : v.InRange) (hw : w.InRange) (ht : v.type = .uint32) :
    v.value = w.value := by
  have hv₀ : 0 ≤ v.value := by
    have hleast := hv.1
    rwa [ht] at hleast
  have hw₀ : 0 ≤ w.value := by
    have hleast := hw.1
    rwa [← h.1, ht] at hleast
  rw [← Word.wrap_of_range hv₀ hv.2, ← Word.wrap_of_range hw₀ hw.2]
  exact h.2

/-- A value that is not a negative number in the encoding of a variable. -/
def Computed (v : Value) : Prop := v.type = .int32 → v.value < 2147483648

theorem Computed.toInt_word (h : v.Computed) (hv : v.InRange) (ht : v.type = .int32) :
    v.word.toInt = v.value := by
  have hleast : -2147483648 ≤ v.value := Int.le_trans v.type.least_bounds.1 hv.1
  rw [word, ← Word.signed_eq_toInt, Word.signed_of_range hleast (h ht)]

end Value

/-! ### Operators that depend on types and words only -/

namespace BinOp

/-- Whether an operator between operands of these types gives one result for all encodings of its
operands. -/
def ignoresEncoding (op : BinOp) (l r : IntType) : Bool :=
  op.ignoresTypes || (l = .uint32 && (r = .uint32 || op = .shiftRight))

variable {op : BinOp} {a a' b b' : Value}

theorem apply_of_result? {n : Int} (h : op.result? (operand a b.type) (operand b a.type) = some n) :
    op.apply a b = .ok ⟨(op.resultType a.type b.type).normal n, op.resultType a.type b.type⟩ := by
  simp only [apply, h]

/-- Results with one word become one value. -/
theorem apply_congr_results {n n' : Int} (haa : a.Alike a') (hbb : b.Alike b')
    (hn : op.result? (operand a b.type) (operand b a.type) = some n)
    (hword : BitVec.ofInt 32 n = op.onWords a.word b.word)
    (hn' : op.result? (operand a' b'.type) (operand b' a'.type) = some n')
    (hword' : BitVec.ofInt 32 n' = op.onWords a'.word b'.word) : op.apply a b = op.apply a' b' := by
  have hwrap : Word.wrap n = Word.wrap n' := by
    rw [← Word.ofInt_eq_iff, hword, hword', haa.word_eq, hbb.word_eq]
  rw [apply_of_result? hn, apply_of_result? hn', haa.1, hbb.1, IntType.normal_congr _ hwrap]

theorem apply_congr_words (h : op.ignoresTypes = true) (ha : a.InRange) (ha' : a'.InRange)
    (hb : b.InRange) (hb' : b'.InRange) (haa : a.Alike a') (hbb : b.Alike b') :
    op.apply a b = op.apply a' b' := by
  obtain ⟨n, hn, hword⟩ := result?_operands h ha hb
  obtain ⟨n', hn', hword'⟩ := result?_operands h ha' hb'
  exact apply_congr_results haa hbb hn hword hn' hword'

theorem apply_congr_wordwise (h : op.isWordwise = true) (haa : a.Alike a') (hbb : b.Alike b') :
    op.apply a b = op.apply a' b' := by
  obtain ⟨n, hn, hword⟩ := result?_wordwise h (operand a b.type) (operand b a.type)
  obtain ⟨n', hn', hword'⟩ := result?_wordwise h (operand a' b'.type) (operand b' a'.type)
  rw [ofInt_operand, ofInt_operand] at hword hword'
  exact apply_congr_results haa hbb hn hword hn' hword'

theorem apply_congr_operands (haa : a.type = a'.type) (hbb : b.type = b'.type)
    (h : op.result? (operand a b.type) (operand b a.type) =
      op.result? (operand a' b'.type) (operand b' a'.type)) : op.apply a b = op.apply a' b' := by
  unfold apply
  rw [h, haa, hbb]

/-- A shift to the right reads its unsigned left operand as signed beside a signed count, of which
only five bits count. -/
theorem apply_congr_shiftRight (ht : a.type = .uint32) (hs : b.type = .int32) (haa : a.Alike a')
    (hbb : b.Alike b') : shiftRight.apply a b = shiftRight.apply a' b' := by
  refine apply_congr_operands haa.1 hbb.1 ?_
  have hcount : Word.shiftCount b.value = Word.shiftCount b'.value := by
    rw [Word.shiftCount_eq, Word.shiftCount_eq]
    exact congrArg (fun w : BitVec 32 => w.toNat % 32) hbb.word_eq
  simp only [operand, ← haa.1, ← hbb.1, ht, hs, and_self, if_true, reduceCtorEq, if_false, result?,
    Word.shiftRight, Word.signed_congr haa.2, hcount]

theorem apply_congr (h : op.ignoresEncoding a.type b.type = true) (ha : a.InRange)
    (ha' : a'.InRange) (hb : b.InRange) (hb' : b'.InRange) (haa : a.Alike a') (hbb : b.Alike b') :
    op.apply a b = op.apply a' b' := by
  simp only [ignoresEncoding, Bool.or_eq_true, Bool.and_eq_true, decide_eq_true_eq] at h
  rcases h with h | ⟨ht, hs | rfl⟩
  · exact apply_congr_words h ha ha' hb hb' haa hbb
  · refine apply_congr_operands haa.1 hbb.1 ?_
    simp only [operand, ← haa.1, ← hbb.1, ht, hs, haa.value_eq ha ha' ht, hbb.value_eq hb hb' hs]
  · cases hs : b.type with
    | uint32 =>
      refine apply_congr_operands haa.1 hbb.1 ?_
      simp only [operand, ← haa.1, ← hbb.1, ht, hs, haa.value_eq ha ha' ht, hbb.value_eq hb hb' hs]
    | int32 => exact apply_congr_shiftRight ht hs haa hbb

/-! ### Comparisons -/

/-- The answer of a comparison of two words that are read as signed. -/
def signedTest? (op : BinOp) (l r : BitVec 32) : Option Bool :=
  match op with
  | equal => some (l = r)
  | notEqual => some (l ≠ r)
  | less => some (l.slt r)
  | lessEqual => some (l.sle r)
  | greater => some (r.slt l)
  | greaterEqual => some (r.sle l)
  | _ => none

theorem operand_eq_toInt (ha : a.InRange) (hc : a.Computed)
    (ht : a.type = .int32 ∨ b.type = .int32) : operand a b.type = a.word.toInt := by
  unfold operand
  cases hs : a.type with
  | uint32 =>
    have hb : b.type = .int32 := ht.resolve_left (by rw [hs]; decide)
    rw [if_pos ⟨rfl, hb⟩]
    exact Word.signed_eq_toInt a.value
  | int32 =>
    rw [if_neg fun h => absurd h.1 (by decide), hc.toInt_word ha hs]

theorem result?_signedTest {answer : Bool} {l r : BitVec 32}
    (h : op.signedTest? l r = some answer) :
    op.result? l.toInt r.toInt = some (if answer then 1 else 0) ∧ op.isTest = true := by
  cases op with
  | equal | notEqual =>
    cases h
    simp only [result?, BitVec.toInt_inj, ne_eq, isTest, and_self]
  | less | lessEqual | greater | greaterEqual =>
    cases h
    refine ⟨?_, rfl⟩
    simp only [result?, ← BitVec.slt_iff_toInt_lt, ← BitVec.sle_iff_toInt_le, gt_iff_lt, ge_iff_le,
      Bool.decide_eq_true]
  | _ => cases h

/-- With a signed operand, and no negative number in the encoding of a variable, a comparison is the
signed one. -/
theorem apply_signedTest {answer : Bool} (ha : a.InRange) (hb : b.InRange) (hca : a.Computed)
    (hcb : b.Computed) (ht : a.type = .int32 ∨ b.type = .int32)
    (h : op.signedTest? a.word b.word = some answer) :
    op.apply a b = .ok ⟨if answer then 1 else 0, .uint32⟩ := by
  obtain ⟨hresult, htest⟩ := result?_signedTest h
  have htype : op.resultType a.type b.type = .uint32 := if_pos htest
  rw [← operand_eq_toInt ha hca ht, ← operand_eq_toInt hb hcb ht.symm] at hresult
  rw [apply_of_result? hresult, htype]
  cases answer <;> rfl

/-! ### Operators that tell the encodings of minus one apart -/

theorem apply_ne_of_toOption (h : (op.apply a b).toOption ≠ (op.apply a' b').toOption) :
    op.apply a b ≠ op.apply a' b' :=
  fun happly => h (congrArg Except.toOption happly)

theorem left_tells (h : op.ignoresTypes = false) (t : IntType) : ∃ n : Nat,
    op.apply ⟨4294967295, .int32⟩ ⟨t.normal n, t⟩ ≠ op.apply ⟨-1, .int32⟩ ⟨t.normal n, t⟩ := by
  cases op with
  | div => exact ⟨2, apply_ne_of_toOption (by cases t <;> decide)⟩
  | mod => exact ⟨3, apply_ne_of_toOption (by cases t <;> decide)⟩
  | shiftRight => exact ⟨1, apply_ne_of_toOption (by cases t <;> decide)⟩
  | equal | notEqual => exact ⟨4294967295, apply_ne_of_toOption (by cases t <;> decide)⟩
  | less | lessEqual | greater | greaterEqual =>
    exact ⟨0, apply_ne_of_toOption (by cases t <;> decide)⟩
  | _ => cases h

theorem right_tells (h : op.ignoresTypes = false) (hshift : op ≠ shiftRight) :
    ∃ n : Nat, op.apply ⟨IntType.normal .uint32 n, .uint32⟩ ⟨4294967295, .int32⟩ ≠
      op.apply ⟨IntType.normal .uint32 n, .uint32⟩ ⟨-1, .int32⟩ := by
  cases op with
  | div | mod => exact ⟨1, apply_ne_of_toOption (by decide)⟩
  | shiftRight => exact absurd rfl hshift
  | equal | notEqual => exact ⟨4294967295, apply_ne_of_toOption (by decide)⟩
  | less | lessEqual | greater | greaterEqual => exact ⟨0, apply_ne_of_toOption (by decide)⟩
  | _ => cases h

end BinOp

/-! ### Expressions -/

namespace Expr

/-- An expression that has a value and no effect. -/
def Settles (calls : Calls) (m : Machine) (e : Expr) (v : Value) : Prop :=
  e.eval calls m = (.ok v, m) ∧ v.InRange

variable {calls : Calls} {m : Machine} {l r l' r' : Expr} {a b a' b' : Value} {op : BinOp}

theorem eval_unary {e : Expr} {v : Value} {op : UnaryOp} (h : e.eval calls m = (.ok v, m)) :
    (unary op e).eval calls m = (.ok (op.apply v), m) := by
  rw [eval, Step.bind_ok h, Step.pure_apply]

/-- An operator between expressions without effects has the result of the operator, or its failure.
-/
theorem eval_binary (hl : l.eval calls m = (.ok a, m)) (hr : r.eval calls m = (.ok b, m)) :
    (binary op l r).eval calls m = ((op.apply a b).mapError Signal.failure, m) := by
  rw [eval, Step.bind_ok hl, Step.bind_ok hr]
  cases op.apply a b with
  | ok v => rfl
  | error e => rfl

theorem eval_binary_injective (hl : l.Settles calls m a) (hr : r.Settles calls m b)
    (hl' : l'.Settles calls m a') (hr' : r'.Settles calls m b')
    (h : (binary op l r).eval calls m = (binary op l' r').eval calls m) :
    op.apply a b = op.apply a' b' := by
  rw [eval_binary hl.1 hr.1, eval_binary hl'.1 hr'.1] at h
  have hresult := congrArg Prod.fst h
  cases hab : op.apply a b <;> cases hab' : op.apply a' b' <;> rw [hab, hab'] at hresult <;>
    cases hresult <;> rfl

/-- An expression of a type with the word of a literal. -/
def ofType (n : Nat) : IntType → Expr
  | .uint32 => literal n
  | .int32 => unary .negate (unary .negate (literal n))

theorem ofType_settles (calls : Calls) (m : Machine) (n : Nat) (t : IntType) :
    (ofType n t).Settles calls m ⟨t.normal n, t⟩ := by
  refine ⟨?_, Value.normal_inRange t n⟩
  cases t with
  | uint32 =>
    rw [ofType, eval, Step.pure_apply]
    rfl
  | int32 =>
    have hvalue : Word.signed (-Word.signed (-Word.signed (Word.wrap n))) = Word.signed n := by
      refine Word.signed_congr (Word.ofInt_eq_iff.mp ?_)
      rw [BitVec.ofInt_neg, Word.ofInt_signed, BitVec.ofInt_neg, Word.ofInt_signed,
        Word.ofInt_wrap, BitVec.neg_neg]
    have hliteral : (literal n).eval calls m = (.ok ⟨Word.wrap n, .uint32⟩, m) := by
      rw [eval, Step.pure_apply]
    rw [ofType, eval_unary (eval_unary hliteral), IntType.normal, ← hvalue]
    simp only [UnaryOp.apply, if_true, reduceCtorEq, if_false]

end Expr

/-- A machine with a signed variable of value `-1`. -/
def Machine.minusOne : Machine := { scopes := [Scope.declare {} "x" (-1) .int32] }

theorem minusOne_variable (calls : Calls) :
    (Expr.name "x").Settles calls .minusOne ⟨4294967295, .int32⟩ := by
  refine ⟨?_, by decide, by decide⟩
  rw [Expr.eval, Run.readVariable_of_get (v := 4294967295) rfl rfl]
  rfl

theorem minusOne_computed (calls : Calls) (m : Machine) :
    (Expr.unary .negate (.literal 1)).Settles calls m ⟨-1, .int32⟩ := by
  refine ⟨?_, by decide, by decide⟩
  have hliteral : (Expr.literal 1).eval calls m = (.ok ⟨1, .uint32⟩, m) := by
    rw [Expr.eval, Step.pure_apply]
    rfl
  rw [Expr.eval_unary hliteral]
  rfl

theorem minusOne_alike : Value.Alike ⟨4294967295, .int32⟩ ⟨-1, .int32⟩ := ⟨rfl, by decide⟩

/-- The other operators tell the variable from the expression, as their left operand or as their
right one. -/
theorem told_apart (calls : Calls) {op : BinOp} {tl tr : IntType}
    (h : op.ignoresEncoding tl tr = false) :
    ∃ l l' r r' a a' b b', Expr.Settles calls .minusOne l a ∧ Expr.Settles calls .minusOne l' a' ∧
      Expr.Settles calls .minusOne r b ∧ Expr.Settles calls .minusOne r' b' ∧
      a.type = tl ∧ b.type = tr ∧
      a.Alike a' ∧ b.Alike b' ∧ op.apply a b ≠ op.apply a' b' := by
  obtain ⟨htypes, hunsigned⟩ := Bool.or_eq_false_iff.mp h
  cases tl with
  | int32 =>
    obtain ⟨n, hn⟩ := BinOp.left_tells htypes tr
    have hr := Expr.ofType_settles calls .minusOne n tr
    exact ⟨_, _, _, _, _, _, _, _, minusOne_variable calls, minusOne_computed calls _, hr, hr, rfl,
      rfl, minusOne_alike, ⟨rfl, rfl⟩, hn⟩
  | uint32 =>
    obtain ⟨htr, hshift⟩ := Bool.or_eq_false_iff.mp hunsigned
    obtain ⟨n, hn⟩ := BinOp.right_tells htypes (of_decide_eq_false hshift)
    have hl := Expr.ofType_settles calls .minusOne n .uint32
    cases tr with
    | uint32 => cases htr
    | int32 =>
      exact ⟨_, _, _, _, _, _, _, _, hl, hl, minusOne_variable calls, minusOne_computed calls _,
        rfl, rfl, ⟨rfl, rfl⟩, minusOne_alike, hn⟩

/-- An operator that works on words gives one result for all numbers that are congruent to its
operands, in every machine and for all expressions without effects. If the values are in the ranges
of their types, an operator between operands of two types gives one result for all encodings exactly
if it is one of those that ignore types, or both operands are unsigned, or it shifts an unsigned
number to the right. A comparison with a signed operand is the signed one as long as no operand is a
negative number in the encoding of a variable. -/
theorem operator_ignores_encoding_iff (op : BinOp) (tl tr : IntType) :
    (op.isWordwise = true → ∀ (calls : Calls) (m : Machine) (l l' r r' : Expr) (a a' b b' : Value),
      l.eval calls m = (.ok a, m) → l'.eval calls m = (.ok a', m) → r.eval calls m = (.ok b, m) →
      r'.eval calls m = (.ok b', m) → a.Alike a' → b.Alike b' →
      (Expr.binary op l r).eval calls m = (Expr.binary op l' r').eval calls m) ∧
    (op.ignoresEncoding tl tr = true ↔
      ∀ (calls : Calls) (m : Machine) (l l' r r' : Expr) (a a' b b' : Value),
        l.Settles calls m a → l'.Settles calls m a' → r.Settles calls m b → r'.Settles calls m b' →
        a.type = tl → b.type = tr → a.Alike a' → b.Alike b' →
        (Expr.binary op l r).eval calls m = (Expr.binary op l' r').eval calls m) ∧
    ∀ (calls : Calls) (m : Machine) (l r : Expr) (a b : Value) (answer : Bool),
      l.Settles calls m a → r.Settles calls m b → a.type = tl → b.type = tr →
      (tl = .int32 ∨ tr = .int32) →
      a.Computed → b.Computed → op.signedTest? a.word b.word = some answer →
      (Expr.binary op l r).eval calls m = (.ok ⟨if answer then 1 else 0, .uint32⟩, m) := by
  refine ⟨?_, ⟨?_, ?_⟩, ?_⟩
  · intro h calls m l l' r r' a a' b b' hl hl' hr hr' haa hbb
    rw [Expr.eval_binary hl hr, Expr.eval_binary hl' hr', BinOp.apply_congr_wordwise h haa hbb]
  · rintro h calls m l l' r r' a a' b b' hl hl' hr hr' rfl rfl haa hbb
    rw [Expr.eval_binary hl.1 hr.1, Expr.eval_binary hl'.1 hr'.1,
      BinOp.apply_congr h hl.2 hl'.2 hr.2 hr'.2 haa hbb]
  · intro h
    cases hop : op.ignoresEncoding tl tr with
    | true => rfl
    | false =>
      let calls := Program.calls ⟨[], []⟩ 0
      obtain ⟨l, l', r, r', a, a', b, b', hl, hl', hr, hr', hta, htb, haa, hbb, hne⟩ :=
        told_apart calls hop
      exact absurd (Expr.eval_binary_injective hl hr hl' hr'
        (h calls _ l l' r r' a a' b b' hl hl' hr hr' hta htb haa hbb)) hne
  · rintro calls m l r a b answer hl hr rfl rfl ht hca hcb htest
    rw [Expr.eval_binary hl.1 hr.1, BinOp.apply_signedTest hl.2 hr.2 hca hcb ht htest]
    rfl

/-- The unsigned number `&*-1` is below zero. -/
theorem minusOne_address (calls : Calls) (m : Machine) :
    (Expr.addressOf (.deref (.unary .negate (.literal 1)))).eval calls m =
    (.ok ⟨-1, .uint32⟩, m) := by
  rw [Expr.eval, Step.bind_ok (minusOne_computed calls m).1]
  rfl

/-- Eight plus `&*-1` is eight plus the largest word, shifts by the variable and by the expression
are the same, and the expression is below zero. -/
theorem minusOne_shifts_and_compares :
    let calls := Program.calls ⟨[], []⟩ 0
    let eight := Expr.literal 8
    let computed := Expr.unary .negate (.literal 1)
    (Expr.binary .add eight (.addressOf (.deref computed))).eval calls .minusOne =
      (Expr.binary .add eight (.literal 4294967295)).eval calls .minusOne ∧
    (Expr.binary .shiftRight eight (.name "x")).eval calls .minusOne =
      (Expr.binary .shiftRight eight computed).eval calls .minusOne ∧
    (Expr.binary .less computed (.literal 0)).eval calls .minusOne =
    (.ok ⟨1, .uint32⟩, .minusOne) := by
  intro calls eight computed
  have height : eight.Settles calls .minusOne ⟨8, .uint32⟩ :=
    Expr.ofType_settles calls .minusOne 8 .uint32
  have hzero : (Expr.literal 0).Settles calls .minusOne ⟨0, .uint32⟩ :=
    Expr.ofType_settles calls .minusOne 0 .uint32
  have hcomputed := minusOne_computed calls .minusOne
  have hlargest := (Expr.ofType_settles calls .minusOne 4294967295 .uint32).1
  refine ⟨?_, ?_, ?_⟩
  · exact (operator_ignores_encoding_iff .add .uint32 .uint32).1 rfl calls .minusOne eight eight
      (.addressOf (.deref computed)) (.literal 4294967295) _ _ _ _ height.1 height.1
      (minusOne_address calls _) hlargest ⟨rfl, rfl⟩ ⟨rfl, by decide⟩
  · exact (operator_ignores_encoding_iff .shiftRight .uint32 .int32).2.1.mp rfl calls .minusOne
      eight eight (.name "x") computed _ _ _ _ height height
      (minusOne_variable calls) hcomputed rfl rfl ⟨rfl, rfl⟩ minusOne_alike
  · exact (operator_ignores_encoding_iff .less .int32 .uint32).2.2 calls .minusOne computed
      (.literal 0) _ _ true
      hcomputed hzero rfl rfl (.inl rfl) (fun _ => by decide) (fun h => by cases h) (by decide)

/-- After `int32 x = -1;` the variable and the expression `-1` have one type and one word, but `x <
0` is false and `-1 < 0` is true. -/
theorem minusOne_not_below_zero :
    let calls := Program.calls ⟨[], []⟩ 0
    let computed := Expr.unary .negate (.literal 1)
    (Stmt.decl (.var ⟨"x", some computed, .int32, none, false⟩)).exec calls 0 {} =
      (.ok (), .minusOne) ∧
    (Expr.name "x").Settles calls .minusOne ⟨4294967295, .int32⟩ ∧
      computed.Settles calls .minusOne ⟨-1, .int32⟩ ∧
    Value.Alike ⟨4294967295, .int32⟩ ⟨-1, .int32⟩ ∧
    (Expr.binary .less (.name "x") (.literal 0)).eval calls .minusOne =
      (.ok ⟨0, .uint32⟩, .minusOne) ∧
    (Expr.binary .less computed (.literal 0)).eval calls .minusOne =
    (.ok ⟨1, .uint32⟩, .minusOne) := by
  intro calls computed
  have hcomputed := minusOne_computed calls .minusOne
  have hzero : (Expr.literal 0).Settles calls .minusOne ⟨0, .uint32⟩ :=
    Expr.ofType_settles calls .minusOne 0 .uint32
  refine ⟨?_, minusOne_variable calls, hcomputed, minusOne_alike, ?_, ?_⟩
  · rw [Stmt.exec]
    rfl
  · rw [Expr.eval_binary (minusOne_variable calls).1 hzero.1]
    rfl
  · rw [Expr.eval_binary hcomputed.1 hzero.1]
    rfl

end WordC
