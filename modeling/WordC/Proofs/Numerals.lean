import Mathlib.Algebra.Group.Nat.Defs
import WordC.Text.Numeral

/-!
# Numerals are read back

The decimal digits of a number are read as that number, as long as there are not too many of them.
Its hexadecimal digits behind `0x` are always read as that number.
-/

namespace WordC.Text

variable {c : Char} {n : Nat}

theorem digit_range (h : c.isDigit = true) : 48 ≤ c.toNat ∧ c.toNat ≤ 57 := by
  have hc : c.val ≥ '0'.val ∧ c.val ≤ '9'.val := by simpa [Char.isDigit] using h
  exact ⟨hc.1, hc.2⟩

theorem toNat_lt_of_isDigit (h : c.isDigit = true) : c.toNat < 128 := by
  have hc := digit_range h
  omega

theorem isDigit_of_decimal (h : c.isDigit = true) : isDigit c = true := by
  rw [isDigit_ascii (toNat_lt_of_isDigit h), h]

theorem decimalValue?_of_isDigit (h : c.isDigit = true) :
    decimalValue? c = some (c.toNat - 48) := by
  unfold decimalValue?
  rw [if_pos (toNat_lt_of_isDigit h), if_pos h]

theorem mapM_decimalValue? {cs : List Char} (h : ∀ c ∈ cs, c.isDigit = true) :
    cs.mapM decimalValue? = some (cs.map fun c => c.toNat - 48) := by
  induction cs with
  | nil => rfl
  | cons c cs ih =>
    rw [List.mapM_cons, decimalValue?_of_isDigit (h c List.mem_cons_self),
      ih fun d hd => h d (List.mem_cons_of_mem c hd)]
    rfl

theorem digitsValue_eq_ofDigitChars (cs : List Char) :
    digitsValue 10 (cs.map fun c => c.toNat - 48) = Nat.ofDigitChars 10 cs 0 := by
  unfold digitsValue
  rw [Nat.ofDigitChars_eq_foldl, List.foldl_map]
  congr 1
  funext n c
  rw [Nat.mul_comm]
  rfl

/-! ### The digits of a number -/

theorem isDigit_of_mem_digits (h : c ∈ Nat.toDigits 10 n) : c.isDigit = true :=
  Nat.isDigit_of_mem_toDigits (by decide) (by decide) h

theorem toNat_digitChar (h : n < 10) : n.digitChar.toNat = n + 48 := by
  have hall : ∀ k : Fin 10, (k.val.digitChar).toNat = k.val + 48 := by decide
  exact hall ⟨n, h⟩

/-- The first digit of a positive number is not zero. -/
theorem head_digits_ne_zero (h : 0 < n) :
    ∃ c cs, Nat.toDigits 10 n = c :: cs ∧ 48 < c.toNat := by
  induction n using Nat.strongRecOn with
  | ind n ih =>
    by_cases hn : n < 10
    · refine ⟨n.digitChar, [], Nat.toDigits_of_lt_base hn, ?_⟩
      rw [toNat_digitChar hn]
      omega
    · have hle : 10 ≤ n := Nat.le_of_not_lt hn
      obtain ⟨c, cs, hcs, hc⟩ := ih (n / 10) (by omega) (by omega)
      refine ⟨c, cs ++ [(n % 10).digitChar], ?_, hc⟩
      rw [Nat.toDigits_of_base_le (by decide) hle, hcs, List.cons_append]

theorem length_digits_le (h : n < 10 ^ maxDecimalDigits) :
    (Nat.toDigits 10 n).length ≤ maxDecimalDigits :=
  (Nat.length_toDigits_le_iff (by decide) (by decide)).mpr h

theorem decimalNumeral?_digits (h : n < 10 ^ maxDecimalDigits) :
    decimalNumeral? (Nat.toDigits 10 n) = some n := by
  have hlen := length_digits_le h
  have hne : (Nat.toDigits 10 n).isEmpty = false :=
    List.isEmpty_eq_false_iff.mpr Nat.toDigits_ne_nil
  unfold decimalNumeral?
  rw [if_neg (by rw [hne]; simpa using hlen), mapM_decimalValue? fun c hc => isDigit_of_mem_digits
    hc, Option.map_some, digitsValue_eq_ofDigitChars, Nat.ofDigitChars_ten_toDigits]

/-- The decimal digits of a number are a literal of that value. -/
theorem literal?_repr (h : n < 10 ^ maxDecimalDigits) : literal? n.repr = some n := by
  have hdigit {c : Char} (hc : c ∈ Nat.toDigits 10 n) : c.isDigit = true := isDigit_of_mem_digits hc
  rw [literal?, Nat.toList_repr]
  unfold literalChars?
  split
  · next cs hcs => exact absurd (hdigit (c := 'x') (by rw [hcs]; simp)) (by decide)
  · next cs hcs => exact absurd (hdigit (c := 'X') (by rw [hcs]; simp)) (by decide)
  · rw [decimalNumeral?_digits h, Option.filter_some, if_pos]
    by_cases hn : n = 0
    · rw [hn]
      rfl
    · obtain ⟨c, cs, hcs, hc⟩ := head_digits_ne_zero (Nat.pos_of_ne_zero hn)
      have hcd : c.isDigit = true := hdigit (by rw [hcs]; simp)
      rw [hcs, List.head?_cons, Option.bind_some, decimalValue?_of_isDigit hcd]
      have hv : c.toNat - 48 ≠ 0 := by omega
      simp [hv]

/-! ### Hexadecimal digits -/

/-- A number behind `0x`. -/
def hexText (n : Nat) : String := String.ofList ('0' :: 'x' :: Nat.toDigits 16 n)

theorem hexValue?_digitChar {d : Nat} (h : d < 16) : hexValue? d.digitChar = some d := by
  have hall : ∀ k : Fin 16, hexValue? k.val.digitChar = some k.val := by decide
  exact hall ⟨d, h⟩

theorem digitsValue_concat (base : Nat) (ds : List Nat) (d : Nat) :
    digitsValue base (ds ++ [d]) = digitsValue base ds * base + d := by
  unfold digitsValue
  rw [List.foldl_append, List.foldl_cons, List.foldl_nil]

theorem mapM_hexValue? (n : Nat) :
    ∃ ds, (Nat.toDigits 16 n).mapM hexValue? = some ds ∧ digitsValue 16 ds = n := by
  induction n using Nat.strongRecOn with
  | ind n ih =>
    by_cases hn : n < 16
    · refine ⟨[n], ?_, by simp [digitsValue]⟩
      rw [Nat.toDigits_of_lt_base hn, List.mapM_cons, hexValue?_digitChar hn]
      rfl
    · have hle : 16 ≤ n := Nat.le_of_not_lt hn
      obtain ⟨ds, hds, hvalue⟩ := ih (n / 16) (by omega)
      refine ⟨ds ++ [n % 16], ?_, ?_⟩
      · rw [Nat.toDigits_of_base_le (by decide) hle, List.mapM_append, hds, List.mapM_cons,
          hexValue?_digitChar (Nat.mod_lt n (by decide))]
        rfl
      · rw [digitsValue_concat, hvalue]
        omega

/-- The hexadecimal digits of a number are a literal of that value. -/
theorem literal?_hexText (n : Nat) : literal? (hexText n) = some n := by
  obtain ⟨ds, hds, hvalue⟩ := mapM_hexValue? n
  have hne : (Nat.toDigits 16 n).isEmpty = false :=
    List.isEmpty_eq_false_iff.mpr Nat.toDigits_ne_nil
  rw [literal?, hexText, String.toList_ofList, literalChars?, hexNumeral?, hne,
    if_neg Bool.false_ne_true, hds, Option.map_some, hvalue]

end WordC.Text
