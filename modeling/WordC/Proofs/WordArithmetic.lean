import WordC.Proofs.Running

/-!
# Unsigned arithmetic is arithmetic of 32-bit vectors

The evaluator works on unbounded integers and reduces them here and there. This file gives operators
and expressions a second meaning, over `BitVec 32`, in which nothing has to be reduced, and proves
that evaluating an expression whose operands are all unsigned gives that meaning, or fails at the
first division by zero. Both operands of every operator are evaluated, the left one first, so the
divisions of an expression come in the order in which a walk over the tree leaves its nodes.
-/

namespace WordC

/-! ### Integers and vectors -/

namespace Word

theorem wrap_eq_toNat (v : Int) : wrap v = ((BitVec.ofInt 32 v).toNat : Int) := by
  rw [BitVec.toNat_ofInt]
  unfold wrap modulus
  omega

theorem wrap_toNat (v : BitVec 32) : wrap v.toNat = v.toNat := by
  rw [wrap_eq_toNat, BitVec.ofInt_natCast, BitVec.ofNat_toNat, BitVec.setWidth_eq]

theorem bits_toNat (v : BitVec 32) : bits v.toNat = v.toNat := by
  unfold bits
  rw [wrap_toNat, Int.toNat_natCast]

theorem shiftCount_toNat (r : BitVec 32) : shiftCount r.toNat = r.toNat % 32 := by
  unfold shiftCount
  omega

theorem shiftLeft_toNat (l r : BitVec 32) :
    shiftLeft l.toNat r.toNat = ((l <<< (r.toNat % 32)).toNat : Int) := by
  rw [shiftLeft, oneBit, shiftCount_toNat, BitVec.toNat_shiftLeft, Nat.one_shiftLeft,
    Nat.shiftLeft_eq, ← Int.natCast_mul]
  unfold wrap modulus
  omega

/-- On an unsigned reading the shift that keeps the sign fills with zeros. -/
theorem shiftRight_toNat (l r : BitVec 32) :
    shiftRight l.toNat r.toNat = ((l >>> (r.toNat % 32)).toNat : Int) := by
  rw [shiftRight, shiftCount_toNat, ← Int.natCast_shiftRight,
    ← BitVec.toNat_ushiftRight, wrap_toNat]

theorem complement_toNat (v : BitVec 32) : complement v.toNat = ((~~~v).toNat : Int) := by
  have h := v.isLt
  rw [complement, BitVec.toNat_not]
  unfold wrap modulus
  omega

theorem toNat_cast_inj {l r : BitVec 32} : (l.toNat : Int) = r.toNat ↔ l = r := by
  rw [Int.ofNat_inj, BitVec.toNat_inj]

theorem toNat_cast_eq_zero {v : BitVec 32} : (v.toNat : Int) = 0 ↔ v = 0 := toNat_cast_inj (r := 0)

end Word

/-! ### Operators on vectors -/

/-- The answer of a test as a word. -/
def truthWord (b : Bool) : BitVec 32 := if b then 1 else 0

theorem wrap_truth (b : Bool) : Word.wrap (if b then 1 else 0) = ((truthWord b).toNat : Int) := by
  cases b <;> rfl

namespace BinOp

/-- An operator on vectors: division and order are unsigned, a shift moves by its right operand
modulo the width and fills with zeros. A division by zero has some value too, which nothing depends
on. -/
def onWords (op : BinOp) (l r : BitVec 32) : BitVec 32 :=
  match op with
  | add => l + r
  | sub => l - r
  | mul => l * r
  | div => l / r
  | mod => l % r
  | bitAnd => l &&& r
  | bitOr => l ||| r
  | bitXor => l ^^^ r
  | shiftLeft => l <<< (r.toNat % 32)
  | shiftRight => l >>> (r.toNat % 32)
  | equal => truthWord (l = r)
  | notEqual => truthWord (l ≠ r)
  | less => truthWord (l < r)
  | lessEqual => truthWord (l ≤ r)
  | greater => truthWord (l > r)
  | greaterEqual => truthWord (l ≥ r)
  | logicalAnd => truthWord (l ≠ 0 ∧ r ≠ 0)
  | logicalOr => truthWord (l ≠ 0 ∨ r ≠ 0)

def isDivision : BinOp → Bool
  | div | mod => true
  | _ => false

/-- The number that an operator computes from two unsigned words, read as a word, is its result on
vectors. -/
theorem result?_toNat (op : BinOp) (l r : BitVec 32) (h : op.isDivision = true → r ≠ 0) :
    (op.result? l.toNat r.toNat).map Word.wrap = some ((op.onWords l r).toNat : Int) := by
  have divisor (hd : op.isDivision = true) : (r.toNat : Int) ≠ 0 :=
    fun h' => h hd (Word.toNat_cast_eq_zero.mp h')
  cases op with
  | add =>
    simp only [result?, onWords, Option.map_some, Word.wrap_eq_toNat, BitVec.ofInt_add]
    simp
  | sub =>
    have hr := r.isLt
    simp only [result?, onWords, Option.map_some, BitVec.toNat_sub]
    unfold Word.wrap Word.modulus
    congr 1
    omega
  | mul =>
    simp only [result?, onWords, Option.map_some, Word.wrap_eq_toNat, BitVec.ofInt_mul]
    simp
  | div =>
    simp only [result?, divisor rfl, if_false, onWords, Option.map_some]
    rw [Int.fdiv_eq_ediv_of_nonneg _ (Int.natCast_nonneg _), ← Int.natCast_ediv,
      ← BitVec.toNat_udiv, Word.wrap_toNat]
  | mod =>
    simp only [result?, divisor rfl, if_false, onWords, Option.map_some]
    rw [Int.fmod_eq_emod_of_nonneg _ (Int.natCast_nonneg _), ← Int.natCast_emod,
      ← BitVec.toNat_umod, Word.wrap_toNat]
  | bitAnd =>
    simp only [result?, onWords, Option.map_some, Word.bitAnd, Word.bits_toNat]
    rw [← BitVec.toNat_and, Word.wrap_toNat]
  | bitOr =>
    simp only [result?, onWords, Option.map_some, Word.bitOr, Word.bits_toNat]
    rw [← BitVec.toNat_or, Word.wrap_toNat]
  | bitXor =>
    simp only [result?, onWords, Option.map_some, Word.bitXor, Word.bits_toNat]
    rw [← BitVec.toNat_xor, Word.wrap_toNat]
  | shiftLeft =>
    simp only [result?, onWords, Option.map_some, Word.shiftLeft_toNat, Word.wrap_toNat]
  | shiftRight =>
    simp only [result?, onWords, Option.map_some, Word.shiftRight_toNat, Word.wrap_toNat]
  | equal => simp only [result?, onWords, Option.map_some, wrap_truth, Word.toNat_cast_inj]
  | notEqual =>
    simp only [result?, onWords, Option.map_some, wrap_truth, ne_eq, Word.toNat_cast_inj]
  | less => simp only [result?, onWords, Option.map_some, wrap_truth, Int.ofNat_lt, BitVec.lt_def]
  | lessEqual =>
    simp only [result?, onWords, Option.map_some, wrap_truth, Int.ofNat_le, BitVec.le_def]
  | greater =>
    simp only [result?, onWords, Option.map_some, wrap_truth, gt_iff_lt,
      Int.ofNat_lt, BitVec.lt_def]
  | greaterEqual =>
    simp only [result?, onWords, Option.map_some, wrap_truth, ge_iff_le,
      Int.ofNat_le, BitVec.le_def]
  | logicalAnd =>
    simp only [result?, onWords, Option.map_some, wrap_truth, ne_eq, Word.toNat_cast_eq_zero]
  | logicalOr =>
    simp only [result?, onWords, Option.map_some, wrap_truth, ne_eq, Word.toNat_cast_eq_zero]

theorem result?_zero {op : BinOp} (h : op.isDivision = true) (l : Int) : op.result? l 0 = none := by
  cases op with
  | div | mod => rfl
  | _ => cases h

theorem resultType_unsigned (op : BinOp) : op.resultType .uint32 .uint32 = .uint32 := by
  unfold resultType
  split <;> rfl

/-- An operator between two unsigned words fails on a division by zero only. -/
theorem apply_unsigned (op : BinOp) (l r : BitVec 32) :
    op.apply ⟨l.toNat, .uint32⟩ ⟨r.toNat, .uint32⟩ =
      if op.isDivision = true ∧ r = 0 then .error op.divisionError
      else .ok ⟨(op.onWords l r).toNat, .uint32⟩ := by
  have hoperand (v : BitVec 32) : operand ⟨v.toNat, .uint32⟩ .uint32 = v.toNat := rfl
  simp only [apply, hoperand, resultType_unsigned]
  by_cases h : op.isDivision = true ∧ r = 0
  · obtain ⟨hd, rfl⟩ := h
    have hz : op.result? l.toNat (0 : BitVec 32).toNat = none := result?_zero hd _
    simp only [hz, hd, true_and, if_true]
  · have hr := result?_toNat op l r fun hd h0 => h ⟨hd, h0⟩
    obtain ⟨v, hv, hw⟩ := Option.map_eq_some_iff.mp hr
    simp only [hv, if_neg h, IntType.normal, hw]

end BinOp

/-- A sign in front of a word, on vectors. -/
def UnaryOp.onWords (op : UnaryOp) (v : BitVec 32) : BitVec 32 :=
  match op with
  | logicalNot => truthWord (v = 0)
  | complement => ~~~v
  | negate => -v

theorem UnaryOp.apply_unsigned {op : UnaryOp} (h : op ≠ .negate) (v : BitVec 32) :
    op.apply ⟨v.toNat, .uint32⟩ = ⟨(op.onWords v).toNat, .uint32⟩ := by
  cases op with
  | logicalNot =>
    simp only [apply, onWords, ne_eq, Word.toNat_cast_eq_zero, Value.mk.injEq, and_true]
    by_cases hv : v = 0#32 <;> simp [hv, truthWord]
  | complement => simp only [apply, onWords, IntType.normal, Word.complement_toNat, Word.wrap_toNat]
  | negate => exact absurd rfl h

/-! ### Expressions on vectors -/

namespace Expr

/-- The expressions made of literals, of names that `named` admits, and of admitted operators. -/
inductive BuiltFrom (named : String → Prop) (sign : UnaryOp → Prop)
    (operator : BinOp → Prop) : Expr → Prop
  | literal (n : Nat) : BuiltFrom named sign operator (literal n)
  | name {x : String} : named x → BuiltFrom named sign operator (name x)
  | unary {op : UnaryOp} {e : Expr} :
      sign op → BuiltFrom named sign operator e → BuiltFrom named sign operator (unary op e)
  | binary {op : BinOp} {l r : Expr} :
      operator op → BuiltFrom named sign operator l → BuiltFrom named sign operator r →
      BuiltFrom named sign operator (binary op l r)

/-- The value of such an expression on vectors. -/
def onWords (env : String → BitVec 32) : Expr → BitVec 32
  | literal n => BitVec.ofNat 32 n
  | name x => env x
  | unary op e => op.onWords (onWords env e)
  | binary op l r => op.onWords (onWords env l) (onWords env r)
  | _ => 0

/-- The divisions of an expression with the values of their right operands, each behind those inside
it. -/
def divisions (env : String → BitVec 32) : Expr → List (BinOp × BitVec 32)
  | unary _ e => divisions env e
  | binary op l r =>
    divisions env l ++ divisions env r ++ if op.isDivision then [(op, onWords env r)] else []
  | _ => []

end Expr

namespace Machine

/-- A name that means an unsigned variable: no register is bound to it, and the scopes do not tag it
as signed. -/
def HasUnsigned (m : Machine) (x : String) : Prop :=
  m.registerNames.get? x = none ∧ (∃ v, m.scopes.get x = .ok v) ∧ m.scopes.typeOf? x ≠ some .int32

/-- What a variable holds, as a vector. -/
def word (m : Machine) (x : String) : BitVec 32 :=
  match m.scopes.get x with
  | .ok v => BitVec.ofInt 32 v
  | .error _ => 0

theorem readVariable_unsigned {m : Machine} {x : String} (h : m.HasUnsigned x) :
    Run.readVariable x m = (.ok ⟨(m.word x).toNat, .uint32⟩, m) := by
  obtain ⟨hr, ⟨v, hv⟩, ht⟩ := h
  have htype : (m.scopes.typeOf? x).getD .uint32 = .uint32 := by
    rcases hs : m.scopes.typeOf? x with _ | _ | _
    · rfl
    · rfl
    · exact absurd hs ht
  have hword : m.word x = BitVec.ofInt 32 v := by simp only [word, hv]
  rw [Run.readVariable_of_get hr hv, htype, hword, Word.wrap_eq_toNat]

end Machine

/-! ### Evaluation -/

/-- The first division by zero of a list of divisions. -/
def firstFault? (ds : List (BinOp × BitVec 32)) : Option BinOp :=
  (ds.find? fun d => d.2 = 0).map (·.1)

theorem firstFault?_append (ds es : List (BinOp × BitVec 32)) :
    firstFault? (ds ++ es) = (firstFault? ds).or (firstFault? es) := by
  unfold firstFault?
  rw [List.find?_append]
  cases ds.find? fun d => d.2 = 0 <;> rfl

theorem firstFault?_own (op : BinOp) (r : BitVec 32) :
    firstFault? (if op.isDivision then [(op, r)] else []) = if op.isDivision = true ∧ r = 0
    then some op else none := by
  by_cases hd : op.isDivision = true <;> by_cases hr : r = 0 <;> simp [firstFault?, hd, hr]

/-- How evaluation ends when the first division by zero is `fault`. -/
def unsignedOutcome (fault : Option BinOp) (v : BitVec 32) : Except Signal Value :=
  match fault with
  | some op => .error (.failure op.divisionError)
  | none => .ok ⟨v.toNat, .uint32⟩

theorem Expr.eval_unsigned (calls : Calls) (m : Machine) {e : Expr}
    (he : e.BuiltFrom m.HasUnsigned (· ≠ .negate) fun _ => True) : e.eval calls m =
    (unsignedOutcome (firstFault? (e.divisions m.word)) (e.onWords m.word), m) := by
  induction he with
  | literal n =>
    have hn : Word.wrap n = ((BitVec.ofNat 32 n).toNat : Int) := by
      rw [Word.wrap_eq_toNat, BitVec.ofInt_natCast]
    simp only [eval, Step.pure_apply, divisions, onWords, hn]
    rfl
  | name hx =>
    rw [eval, Machine.readVariable_unsigned hx]
    rfl
  | unary ho _ ih =>
    rw [eval, Step.bind_apply, ih, divisions, onWords]
    cases firstFault? _ with
    | some d => rfl
    | none => simp only [unsignedOutcome, Step.pure_apply, UnaryOp.apply_unsigned ho]
  | @binary op l r _ _ _ ihl ihr =>
    rw [eval, Step.bind_apply, ihl, divisions, onWords, firstFault?_append, firstFault?_append,
      firstFault?_own]
    -- The left operand's fault comes first, then the right operand's, then that of the operator
    -- itself.
    cases firstFault? (l.divisions m.word) with
    | some d => rfl
    | none =>
      simp only [unsignedOutcome, Option.none_or, Step.bind_apply, ihr]
      cases firstFault? (r.divisions m.word) with
      | some d => rfl
      | none =>
        simp only [Option.none_or, BinOp.apply_unsigned]
        by_cases h : op.isDivision = true ∧ r.onWords m.word = 0
        · simp only [if_pos h, Run.fail_apply]
        · simp only [if_neg h, Step.pure_apply]

theorem firstFault?_eq_none {ds : List (BinOp × BitVec 32)} (h : firstFault? ds = none) :
    ∀ d ∈ ds, d.2 ≠ 0 := by
  unfold firstFault? at h
  rw [Option.map_eq_none_iff, List.find?_eq_none] at h
  intro d hd h0
  exact h d hd (decide_eq_true h0)

theorem firstFault?_eq_some {ds : List (BinOp × BitVec 32)} {op : BinOp}
    (h : firstFault? ds = some op) :
    ∃ before after, ds = before ++ (op, 0) :: after ∧ ∀ d ∈ before, d.2 ≠ 0 := by
  unfold firstFault? at h
  obtain ⟨⟨op', v⟩, hfind, rfl⟩ := Option.map_eq_some_iff.mp h
  obtain ⟨hv, before, after, rfl, hbefore⟩ := List.find?_eq_some_iff_append.mp hfind
  have h0 : v = 0 := of_decide_eq_true hv
  subst h0
  refine ⟨before, after, rfl, ?_⟩
  intro d hd h0
  have hb := hbefore d hd
  rw [decide_eq_true h0] at hb
  exact Bool.noConfusion hb

theorem Expr.isDivision_of_mem (env : String → BitVec 32) (e : Expr) :
    ∀ d ∈ e.divisions env, d.1.isDivision = true := by
  fun_induction divisions env e with
  | case1 op e ih => exact ih
  | case2 op l r ihl ihr =>
    intro d hd
    rcases List.mem_append.mp hd with hd | hd
    · rcases List.mem_append.mp hd with hd | hd
      · exact ihl d hd
      · exact ihr d hd
    · by_cases ho : op.isDivision = true
      · rw [if_pos ho, List.mem_singleton] at hd
        rw [hd]
        exact ho
      · rw [if_neg ho] at hd
        exact absurd hd List.not_mem_nil
  | case3 => exact fun d hd => absurd hd List.not_mem_nil

/-- The text of the failure of a division. -/
theorem BinOp.message_divisionError {op : BinOp} (h : op.isDivision = true) :
    op.divisionError.message = if op = .div then "Division by zero" else "Modulo by zero" := by
  cases op with
  | div | mod => rfl
  | _ => cases h

/-- Evaluating an expression of unsigned operands leaves the machine as it was. If none of its
divisions is by zero, the answer is its value on vectors; else it fails with the text of the first
one that is. -/
theorem eval_unsigned_exact (calls : Calls) (m : Machine) (e : Expr)
    (he : e.BuiltFrom m.HasUnsigned (· ≠ .negate) fun _ => True) :
    ((∀ d ∈ e.divisions m.word, d.2 ≠ 0) ∧
      e.eval calls m = (.ok ⟨(e.onWords m.word).toNat, .uint32⟩, m)) ∨
    (∃ before op after, e.divisions m.word = before ++ (op, 0) :: after ∧ (∀ d ∈ before, d.2 ≠ 0) ∧
      ∃ failure : RunError, e.eval calls m = (.error (.failure failure), m) ∧
        failure.message = if op = .div then "Division by zero" else "Modulo by zero") := by
  rw [Expr.eval_unsigned calls m he]
  cases hf : firstFault? (e.divisions m.word) with
  | none => exact .inl ⟨firstFault?_eq_none hf, rfl⟩
  | some op =>
    obtain ⟨before, after, hds, hbefore⟩ := firstFault?_eq_some hf
    have hop : op.isDivision = true := e.isDivision_of_mem m.word (op, 0) (by rw [hds]; simp)
    exact .inr ⟨before, op, after, hds, hbefore, op.divisionError, rfl,
      BinOp.message_divisionError hop⟩

/-- In `1 || x / (x - x)` the right operand is evaluated although the left one decides. -/
theorem eval_unsigned_exact_eager :
    let m : Machine := { scopes := [Scope.declare {} "x" 7 .uint32] }
    let e : Expr := .binary .logicalOr (.literal 1)
      (.binary .div (.name "x") (.binary .sub (.name "x") (.name "x")))
    e.BuiltFrom m.HasUnsigned (· ≠ .negate) (fun _ => True) ∧
      ∃ failure : RunError, e.eval (Program.calls ⟨[], []⟩ 0) m = (.error (.failure failure), m) ∧
        failure.message = "Division by zero" := by
  intro m e
  have hx : m.HasUnsigned "x" := ⟨rfl, ⟨7, rfl⟩, by decide⟩
  have he : e.BuiltFrom m.HasUnsigned (· ≠ .negate) fun _ => True :=
    .binary trivial (.literal 1)
      (.binary trivial (.name hx) (.binary trivial (.name hx) (.name hx)))
  have hds : e.divisions m.word = [(.div, 0)] := by decide
  refine ⟨he, ?_⟩
  rcases eval_unsigned_exact (Program.calls ⟨[], []⟩ 0) m e he
    with ⟨hnone, _⟩ | ⟨before, op, after, hsplit, _, h⟩
  · exact absurd rfl (hnone (.div, 0) (by rw [hds]; simp))
  · have hop : op = .div := by
      have hmem : (op, (0 : BitVec 32)) ∈ e.divisions m.word := by rw [hsplit]; simp
      rw [hds, List.mem_singleton] at hmem
      exact congrArg Prod.fst hmem
    subst hop
    exact h

end WordC
