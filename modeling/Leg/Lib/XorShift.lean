import Mathlib.Data.Nat.Bitwise

/-! Words xored with a shift of themselves: no word is lost, whatever the width and the shift. -/
namespace Leg.XorShift

variable {w k : ℕ}

/-- Bit by bit from the low end: a bit of the result is that of the word and of a lower one. -/
theorem left_injective (hk : 0 < k) :
    Function.Injective fun x : BitVec w => x ^^^ x <<< k := by
  intro x y h
  have hbit (i : ℕ) (hi : i < w) : x.getLsbD i = y.getLsbD i := by
    induction i using Nat.strong_induction_on with
    | _ i ih =>
      have hi' := congrArg (fun z => BitVec.getLsbD z i) h
      simp only [BitVec.getLsbD_xor, BitVec.getLsbD_shiftLeft, hi, decide_true,
        Bool.true_and] at hi'
      by_cases hik : i < k
      · simpa [hik] using hi'
      · rw [ih (i - k) (by omega) (by omega)] at hi'
        exact Bool.xor_left_inj.mp hi'
  exact BitVec.eq_of_getLsbD_eq hbit

/-- Bit by bit from the high end. -/
theorem right_injective (hk : 0 < k) :
    Function.Injective fun x : BitVec w => x ^^^ x >>> k := by
  intro x y h
  have hbit (n i : ℕ) (hn : w ≤ i + n) : x.getLsbD i = y.getLsbD i := by
    induction n using Nat.strong_induction_on generalizing i with
    | _ n ih =>
      by_cases hi : i < w
      · have hi' := congrArg (fun z => BitVec.getLsbD z i) h
        simp only [BitVec.getLsbD_xor, BitVec.getLsbD_ushiftRight] at hi'
        rw [ih (n - k) (by omega) (k + i) (by omega)] at hi'
        exact Bool.xor_left_inj.mp hi'
      · rw [BitVec.getLsbD_of_ge x i (by omega), BitVec.getLsbD_of_ge y i (by omega)]
  exact BitVec.eq_of_getLsbD_eq fun i _ => hbit w i (by omega)

end Leg.XorShift
