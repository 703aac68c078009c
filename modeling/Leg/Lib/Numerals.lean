import Mathlib.Data.Nat.Digits.Lemmas
import Mathlib.Data.Nat.Log

/-! Positional numerals over any radix from two on, most significant digit first. -/
namespace Leg

/-- A numeral without leading zeros that denotes the number. -/
structure IsNumeral (radix : ℕ) (digits : List ℕ) (value : ℕ) : Prop where
  small : ∀ d ∈ digits, d < radix
  ne_nil : digits ≠ []
  lead : digits.head? = some 0 → digits = [0]
  denotes : Nat.ofDigits radix digits.reverse = value

/-- The numeral of a number. -/
def numeral (radix value : ℕ) : List ℕ :=
  if value = 0 then [0] else (Nat.digits radix value).reverse

variable {radix value : ℕ}

theorem numeral_of_lt (hlt : value < radix) : numeral radix value = [value] := by
  unfold numeral
  split
  next hzero => rw [hzero]
  next hne => rw [Nat.digits_of_lt radix value hne hlt, List.reverse_singleton]

/-- The last digit is split off by one division. -/
theorem numeral_of_le (hradix : 1 < radix) (hle : radix ≤ value) :
    numeral radix value = numeral radix (value / radix) ++ [value % radix] := by
  have hquot : value / radix ≠ 0 := (Nat.div_pos hle (Nat.zero_lt_of_lt hradix)).ne'
  have hvalue : value ≠ 0 := by omega
  unfold numeral
  rw [if_neg hvalue, if_neg hquot, Nat.digits_eq_cons_digits_div hradix hvalue,
    List.reverse_cons]

theorem numeral_length (hradix : 1 < radix) :
    (numeral radix value).length = Nat.log radix value + 1 := by
  unfold numeral
  split
  next hzero => rw [hzero, Nat.log_zero_right, List.length_singleton]
  next hne => rw [List.length_reverse, Nat.length_digits radix value hradix hne]

theorem numeral_isNumeral (hradix : 1 < radix) : IsNumeral radix (numeral radix value) value := by
  by_cases hzero : value = 0
  · subst hzero
    rw [numeral_of_lt (Nat.zero_lt_of_lt hradix)]
    constructor
    · intro d hd
      rw [List.mem_singleton.mp hd]
      exact Nat.zero_lt_of_lt hradix
    · exact List.cons_ne_nil _ _
    · exact fun _ => rfl
    · rfl
  · have hdigits : Nat.digits radix value ≠ [] := Nat.digits_ne_nil_iff_ne_zero.mpr hzero
    rw [numeral, if_neg hzero]
    constructor
    · intro d hd
      exact Nat.digits_lt_base hradix (List.mem_reverse.mp hd)
    · exact fun hnil => hdigits (List.reverse_eq_nil_iff.mp hnil)
    · intro hhead
      rw [List.head?_reverse, List.getLast?_eq_some_getLast hdigits] at hhead
      exact absurd (Option.some.inj hhead) (Nat.getLast_digit_ne_zero radix hzero)
    · rw [List.reverse_reverse, Nat.ofDigits_digits]

end Leg
