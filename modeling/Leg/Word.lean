import Mathlib.Data.Nat.Bitwise
import Mathlib.Tactic.Ring

/-! Machine words and the address helpers of `utils.h`. A `u32` or a pointer is
a natural number below `2 ^ 32`; every operation that can leave that range
wraps with `u32`, as the unsigned C arithmetic does. -/
namespace Leg

/-- Wrap to 32 bits. -/
def u32 (n : ℕ) : ℕ := n % 4294967296

/-- Wrap to 64 bits. -/
def u64 (n : ℕ) : ℕ := n % 18446744073709551616

/-- `U32_MAX` of `types.h`. -/
def u32Max : ℕ := 4294967295

/-- The one's complement of a 32-bit word, C's `~`. -/
def bnot (n : ℕ) : ℕ := u32Max - n

/-- C's subtraction on `u32`. -/
def wsub (a b : ℕ) : ℕ := u32 (a + (4294967296 - b))

theorem u32_of_lt {n : ℕ} (h : n < 4294967296) : u32 n = n := Nat.mod_eq_of_lt h

theorem u32_lt (n : ℕ) : u32 n < 4294967296 := Nat.mod_lt _ (by decide)

theorem wsub_of_le {a b : ℕ} (hb : b ≤ a) (ha : a < 4294967296) : wsub a b = a - b := by
  unfold wsub u32
  omega

def alignUp (x align : ℕ) : ℕ := u32 (x + align - 1) &&& bnot (align - 1)

def alignDown (x align : ℕ) : ℕ := x &&& bnot (align - 1)

def divRoundUp (a b : ℕ) : ℕ := u32 (a + b - 1) / b

theorem land_bnot_two_pow {x k : ℕ} (hx : x < 4294967296) (hk : k ≤ 32) :
    x &&& bnot (2 ^ k - 1) = x / 2 ^ k * 2 ^ k := by
  have hpos : 0 < 2 ^ k := Nat.two_pow_pos k
  have hle : 2 ^ k ≤ 2 ^ 32 := Nat.pow_le_pow_right (by decide) hk
  have hb : bnot (2 ^ k - 1) = 2 ^ 32 - (2 ^ k - 1 + 1) := by
    unfold bnot u32Max
    omega
  apply Nat.eq_of_testBit_eq
  intro i
  rw [hb, Nat.testBit_and, Nat.testBit_two_pow_sub_succ (by omega), Nat.testBit_two_pow_sub_one,
    Nat.testBit_mul_two_pow, Nat.testBit_div_two_pow]
  by_cases hki : k ≤ i
  · rw [Nat.sub_add_cancel hki]
    by_cases hi : i < 32
    · simp [hi, hki, Nat.not_lt.mpr hki]
    · have hxi : x < 2 ^ i := lt_of_lt_of_le hx
        (Nat.pow_le_pow_right (by decide) (Nat.le_of_not_lt hi) : 2 ^ 32 ≤ 2 ^ i)
      simp [Nat.testBit_lt_two_pow hxi]
  · simp [hki, Nat.lt_of_not_le hki]

theorem alignDown_two_pow {x k : ℕ} (hx : x < 4294967296) (hk : k ≤ 32) :
    alignDown x (2 ^ k) = x / 2 ^ k * 2 ^ k := land_bnot_two_pow hx hk

theorem alignUp_two_pow {x k : ℕ} (hk : k ≤ 32) :
    alignUp x (2 ^ k) = u32 (x + 2 ^ k - 1) / 2 ^ k * 2 ^ k :=
  land_bnot_two_pow (u32_lt _) hk

theorem alignUp_lt {x k : ℕ} (hk : k ≤ 32) : alignUp x (2 ^ k) < 4294967296 := by
  rw [alignUp_two_pow hk]
  exact lt_of_le_of_lt (Nat.div_mul_le_self _ _) (u32_lt _)

end Leg
