import Mathlib.Data.Nat.Bitwise
import Mathlib.Data.Finset.Card
import Mathlib.Order.Interval.Finset.Nat

/-! Bits of words under the masks that set and clear one of them, and the search for a
run of clear bits in a window. A bitmap is any test on the naturals, so the search is
independent of how the bits are stored. -/
namespace Leg.Bitmap

section Word

theorem testBit_or_shift (x k j : ℕ) :
    (x ||| 1 <<< k).testBit j = (x.testBit j || decide (j = k)) := by
  rw [Nat.testBit_or, Nat.shiftLeft_eq, one_mul, Nat.testBit_two_pow]
  simp only [eq_comm]

/-- `x & ~(1 << k)` clears bit `k` of a word of `w` bits. -/
theorem testBit_and_not_shift {x w k : ℕ} (hx : x < 2 ^ w) (hk : k < w) (j : ℕ) :
    (x &&& (2 ^ w - 1 - 1 <<< k)).testBit j = (x.testBit j && decide (j ≠ k)) := by
  have hlt : 2 ^ k < 2 ^ w := Nat.pow_lt_pow_right (by decide) hk
  have hmask : 2 ^ w - 1 - 1 <<< k = 2 ^ w - (2 ^ k + 1) := by
    rw [Nat.shiftLeft_eq]
    omega
  rw [hmask, Nat.testBit_and, Nat.testBit_two_pow_sub_succ hlt, Nat.testBit_two_pow]
  by_cases hj : j < w
  · simp only [hj, decide_true, Bool.true_and, eq_comm, ne_eq, decide_not]
  · have hxj : x.testBit j = false :=
      Nat.testBit_lt_two_pow (lt_of_lt_of_le hx (Nat.pow_le_pow_right (by decide) (by omega)))
    simp [hxj]

theorem or_shift_lt {x w k : ℕ} (hx : x < 2 ^ w) (hk : k < w) : x ||| 1 <<< k < 2 ^ w := by
  refine Nat.or_lt_two_pow hx ?_
  rw [Nat.shiftLeft_eq, one_mul]
  exact Nat.pow_lt_pow_right (by decide) hk

theorem shift_and_one (x k : ℕ) : decide ((x >>> k) &&& 1 ≠ 0) = x.testBit k := by
  rw [Nat.testBit, Nat.and_comm 1]
  generalize (x >>> k) &&& 1 = a
  cases a <;> rfl

end Word

section Search
variable (busy : ℕ → Bool) (n : ℕ)

/-- Scan `k` bits from `i` for `n` clear bits in a row; `len` bits from `start` are clear
so far. -/
def runSearch : (k i start len : ℕ) → Option ℕ
  | 0, _, _, _ => none
  | k + 1, i, start, len =>
    if busy i then runSearch k (i + 1) start 0
    else
      let start := if len = 0 then i else start
      if len + 1 = n then some start else runSearch k (i + 1) start (len + 1)

variable {busy n}

/-- The scanner's state: the last `len` bits are a clear run that starts at `start`. -/
private def Scanned (busy : ℕ → Bool) (i start len : ℕ) : Prop :=
  (len ≠ 0 → start + len = i) ∧ ∀ j, i - len ≤ j → j < i → busy j = false

private theorem Scanned.fresh (busy : ℕ → Bool) (i start : ℕ) : Scanned busy i start 0 :=
  ⟨fun h0 => absurd rfl h0, fun j hj hji => by omega⟩

private theorem Scanned.next {i start len : ℕ} (h : Scanned busy i start len) (hle : len ≤ i)
    (hb : busy i = false) :
    Scanned busy (i + 1) (if len = 0 then i else start) (len + 1) := by
  refine ⟨fun _ => ?_, fun j hj hji => ?_⟩
  · split
    · omega
    next h0 => have := h.1 h0; omega
  · by_cases hji' : j = i
    · rw [hji', hb]
    · exact h.2 j (by omega) (by omega)

/-- A run the scan reports has `n` clear bits and ends inside the window. -/
theorem runSearch_sound {k i start len s : ℕ} (hs : Scanned busy i start len) (hle : len ≤ i)
    (h : runSearch busy n k i start len = some s) :
    i - len ≤ s ∧ s + n ≤ i + k ∧ ∀ j, s ≤ j → j < s + n → busy j = false := by
  induction k generalizing i start len with
  | zero => simp [runSearch] at h
  | succ k ih =>
    rw [runSearch] at h
    split at h
    next hb =>
      obtain ⟨h1, h2, h3⟩ := ih (.fresh busy _ _) (by omega) h
      exact ⟨by omega, by omega, h3⟩
    next hb =>
      have hb' : busy i = false := by simpa using hb
      have hnext := hs.next hle hb'
      dsimp only at h
      split at h
      next hn =>
        have hst := hnext.1 (by omega)
        rw [Option.some.inj h] at hst hnext
        exact ⟨by omega, by omega, fun j hj hjn => hnext.2 j (by omega) (by omega)⟩
      next hn =>
        obtain ⟨h1, h2, h3⟩ := ih hnext (by omega) h
        exact ⟨by omega, by omega, h3⟩

/-- A scan that reports nothing has passed no run: every `n` bits in a row that end in the
window, and do not start before the scanned run, hold a busy one. -/
theorem runSearch_complete {k i start len : ℕ} (hn : 0 < n) (hlen : len < n)
    (h : runSearch busy n k i start len = none) {s : ℕ} (hs : i - len ≤ s) (hi : i < s + n)
    (hk : s + n ≤ i + k) : ∃ j, i ≤ j ∧ s ≤ j ∧ j < s + n ∧ busy j = true := by
  induction k generalizing i start len with
  | zero => omega
  | succ k ih =>
    rw [runSearch] at h
    split at h
    next hb =>
      by_cases hsi : s ≤ i
      · exact ⟨i, le_refl i, hsi, hi, hb⟩
      · obtain ⟨j, h1, h2⟩ := ih hn h (by omega) (by omega) (by omega)
        exact ⟨j, by omega, h2⟩
    next hb =>
      dsimp only at h
      split at h
      next => exact absurd h (by simp)
      next hne =>
        obtain ⟨j, h1, h2⟩ := ih (by omega) h (by omega) (by omega) (by omega)
        exact ⟨j, by omega, h2⟩

theorem runSearch_some {k i start s : ℕ} (h : runSearch busy n k i start 0 = some s) :
    i ≤ s ∧ s + n ≤ i + k ∧ ∀ j, s ≤ j → j < s + n → busy j = false := by
  have := runSearch_sound (.fresh busy i start) (Nat.zero_le i) h
  simpa using this

theorem runSearch_none {k i start s : ℕ} (hn : 0 < n)
    (h : runSearch busy n k i start 0 = none) (hs : i ≤ s) (hk : s + n ≤ i + k) :
    ∃ j, s ≤ j ∧ j < s + n ∧ busy j = true := by
  obtain ⟨j, -, hj⟩ := runSearch_complete hn hn h (by omega) (by omega) hk
  exact ⟨j, hj⟩

/-- The scan reports the lowest run: no clear run begins below the one it returns. -/
theorem runSearch_first {k i start len s t : ℕ} (hs : Scanned busy i start len) (hlen : len < n)
    (hle : len ≤ i) (h : runSearch busy n k i start len = some t) (his : i - len ≤ s)
    (hc : ∀ j, s ≤ j → j < s + n → busy j = false) : t ≤ s := by
  induction k generalizing i start len with
  | zero => simp [runSearch] at h
  | succ k ih =>
    rw [runSearch] at h
    split at h
    next hb =>
      have hpast : i < s := by
        by_contra hge
        rw [hc i (by omega) (by omega)] at hb
        exact absurd hb (by decide)
      exact ih (.fresh busy _ _) (by omega) (Nat.zero_le _) h (by omega)
    next hb =>
      have hnext := hs.next hle (by simpa using hb)
      dsimp only at h
      split at h
      next hn =>
        have hst := hnext.1 (by omega)
        rw [Option.some.inj h] at hst
        omega
      next hn => exact ih hnext (by omega) (by omega) h (by omega)

theorem runSearch_lowest {k i start s t : ℕ} (h : runSearch busy n k i start 0 = some t)
    (his : i ≤ s) (hc : ∀ j, s ≤ j → j < s + n → busy j = false) (hn : 0 < n) : t ≤ s :=
  runSearch_first (.fresh busy i start) hn (Nat.zero_le i) h his hc

end Search

section Clear
variable (busy : ℕ → Bool) (total : ℕ)

/-- The clear bits below `total`. -/
def clear : Finset ℕ := (Finset.range total).filter fun i => busy i = false

variable {busy total} (busy' : ℕ → Bool)

@[simp] theorem mem_clear {i : ℕ} : i ∈ clear busy total ↔ i < total ∧ busy i = false := by
  simp [clear]

/-- Setting `n` clear bits in a row takes `n` from the count. -/
theorem card_clear_set {s n : ℕ} (hs : s + n ≤ total)
    (hclear : ∀ j, s ≤ j → j < s + n → busy j = false)
    (hset : ∀ j, j < total → (busy' j = true ↔ busy j = true ∨ s ≤ j ∧ j < s + n)) :
    n ≤ (clear busy total).card ∧ (clear busy' total).card = (clear busy total).card - n := by
  have hsub : Finset.Ico s (s + n) ⊆ clear busy total := by
    intro j hj
    obtain ⟨h1, h2⟩ := Finset.mem_Ico.mp hj
    exact mem_clear.mpr ⟨by omega, hclear j h1 h2⟩
  have heq : clear busy' total = clear busy total \ Finset.Ico s (s + n) := by
    ext j
    simp only [mem_clear, Finset.mem_sdiff, Finset.mem_Ico]
    constructor
    · rintro ⟨hj, hb⟩
      have := (hset j hj).not.mp (by simp [hb])
      rw [not_or] at this
      exact ⟨⟨hj, by simpa using this.1⟩, this.2⟩
    · rintro ⟨⟨hj, hb⟩, hr⟩
      refine ⟨hj, ?_⟩
      have := (hset j hj).not.mpr (by rw [not_or]; exact ⟨by simp [hb], hr⟩)
      simpa using this
  have hcard := Finset.card_le_card hsub
  rw [Nat.card_Ico] at hcard
  refine ⟨by omega, ?_⟩
  rw [heq, Finset.card_sdiff_of_subset hsub, Nat.card_Ico]
  omega

/-- Clearing a set bit adds one to the count. -/
theorem card_clear_unset {i : ℕ} (hi : i < total) (hb : busy i = true)
    (hunset : ∀ j, j < total → (busy' j = false ↔ busy j = false ∨ j = i)) :
    (clear busy' total).card = (clear busy total).card + 1 := by
  have heq : clear busy' total = insert i (clear busy total) := by
    ext j
    simp only [mem_clear, Finset.mem_insert]
    constructor
    · rintro ⟨hj, hb'⟩
      exact ((hunset j hj).mp hb').elim (fun h => .inr ⟨hj, h⟩) .inl
    · rintro (rfl | ⟨hj, hb'⟩)
      · exact ⟨hi, (hunset _ hi).mpr (.inr rfl)⟩
      · exact ⟨hj, (hunset j hj).mpr (.inl hb')⟩
  rw [heq, Finset.card_insert_of_notMem (by simp [hb])]

end Clear

end Leg.Bitmap
